/-
What holds of the address editor through a sequence of edits.

A state is `Valid` when the cursor and the anchor, now and in all snapshots, are offsets at character boundaries. Every
operation keeps this but `backspace`, which leaves an anchor behind that stands at the cursor (`backspace_valid`); in the
states that are `Steady` that anchor stays at a boundary (`editing_safe`). Undo takes back the last edit, whatever was moved
or selected since, and redo applies it again (`undoes`).
-/
import Render.Browser.AddressEditor

namespace Render.Browser

open Render.Core Render.Net

abbrev OnBoundary (text : Chars) (position : ℕ) : Prop := Offsets.Boundary Char.utf8Size text position

/-! ## Positions -/

theorem utf8Size_pos (c : Char) : 0 < c.utf8Size := Char.utf8Size_pos c

theorem clampDown_boundary (text : Chars) (position : ℕ) : OnBoundary text (clampDown text position) := by
  induction position with
  | zero => exact .zero text
  | succ position ih =>
    rw [clampDown]
    split_ifs with h
    · exact (Offsets.isSome_split utf8Size_pos).1 h
    · exact ih

theorem clampBoundary_boundary (text : Chars) (position : ℕ) : OnBoundary text (clampBoundary text position) :=
  clampDown_boundary _ _

theorem previousBoundary_append (before after : Chars) :
    previousBoundary (before ++ after) before.byteLen = some (Chars.byteLen before.dropLast) := by
  simp only [previousBoundary, splitAt, Chars.byteLen, Offsets.split_append utf8Size_pos, Option.bind_eq_bind, Option.bind_some,
    Option.pure_def]

theorem dropLast_boundary (before after : Chars) : OnBoundary (before ++ after) (Chars.byteLen before.dropLast) := by
  refine Offsets.Boundary.append_left ?_ after
  cases h : before.reverse with
  | nil =>
    rw [List.reverse_eq_nil_iff.1 h]
    exact .zero []
  | cons c rest =>
    have hbefore : before = rest.reverse ++ [c] := by rw [← List.reverse_reverse before, h, List.reverse_cons]
    rw [hbefore, List.dropLast_concat]
    exact .append _ _

theorem previousBoundary_boundary {text : Chars} {position : ℕ} (h : OnBoundary text position) :
    ∃ previous, previousBoundary text position = some previous ∧ OnBoundary text previous := by
  obtain ⟨before, after, rfl, rfl⟩ := h
  exact ⟨_, previousBoundary_append before after, dropLast_boundary before after⟩

/-- the next boundary is one character further, or the end -/
theorem nextBoundary_append (before after : Chars) :
    ∃ middle rest, after = middle ++ rest ∧ nextBoundary (before ++ after) before.byteLen = some (Chars.byteLen (before ++ middle)) ∧
      (after ≠ [] → middle ≠ []) := by
  have hsplit : splitAt (before ++ after) before.byteLen = some (before, after) := Offsets.split_append utf8Size_pos before after
  cases after with
  | nil =>
    refine ⟨[], [], rfl, ?_, fun h => absurd rfl h⟩
    simp only [nextBoundary, hsplit, Option.bind_eq_bind, Option.bind_some, Option.pure_def]
  | cons first after =>
    refine ⟨[first], after, rfl, ?_, fun _ => by simp⟩
    cases after with
    | nil => simp only [nextBoundary, hsplit, Option.bind_eq_bind, Option.bind_some, Option.pure_def]
    | cons second rest =>
      rw [nextBoundary, hsplit]
      simp [Chars.byteLen]

theorem nextBoundary_boundary {text : Chars} {position : ℕ} (h : OnBoundary text position) :
    ∃ next, nextBoundary text position = some next ∧ OnBoundary text next := by
  obtain ⟨before, after, rfl, rfl⟩ := h
  obtain ⟨middle, rest, rfl, hnext, -⟩ := nextBoundary_append before after
  refine ⟨_, hnext, ?_⟩
  rw [← List.append_assoc]
  exact .append _ _

/-! ## Valid states -/

structure EditSnapshot.Valid (s : EditSnapshot) : Prop where
  cursor : OnBoundary s.text s.cursor
  anchor : ∀ anchor, s.anchor = some anchor → OnBoundary s.text anchor

namespace AddressEditor

/-- the cursor and the anchor are at character boundaries, now and in the histories -/
structure Valid (e : AddressEditor) : Prop where
  now : e.snapshot.Valid
  undo : ∀ s ∈ e.undoHistory, s.Valid
  redo : ∀ s ∈ e.redoHistory, s.Valid

variable {e e' : AddressEditor}

theorem new_valid (text : Chars) : (new text).Valid := ⟨⟨.end text, nofun⟩, nofun, nofun⟩

theorem Valid.cursor (h : e.Valid) : OnBoundary e.text e.cursor := h.now.cursor

theorem Valid.anchor (h : e.Valid) {anchor : ℕ} (hanchor : e.anchor = some anchor) : OnBoundary e.text anchor :=
  h.now.anchor anchor hanchor

/-- other positions in the same text -/
theorem Valid.positions (h : e.Valid) {cursor : ℕ} {anchor : Option ℕ} {preedit : Chars} (hcursor : OnBoundary e.text cursor)
    (hanchor : ∀ a, anchor = some a → OnBoundary e.text a) : Valid { e with cursor, anchor, preedit } :=
  ⟨⟨hcursor, hanchor⟩, h.undo, h.redo⟩

/-- the ends of a selection are in order and at boundaries -/
theorem Valid.selection (h : e.Valid) {start stop : ℕ} (hselection : e.selection = some (start, stop)) :
    OnBoundary e.text start ∧ OnBoundary e.text stop ∧ start ≤ stop := by
  rw [AddressEditor.selection] at hselection
  obtain ⟨anchor, hanchor, hordered⟩ := Option.bind_eq_some_iff.1 hselection
  have hboundary := h.anchor hanchor
  simp only [ordered] at hordered
  split_ifs at hordered with hne hless
  · cases hordered
    exact ⟨hboundary, h.cursor, hless.le⟩
  · cases hordered
    exact ⟨h.cursor, hboundary, Nat.not_lt.1 hless⟩

/-- **No slice is out of range.** The selected text of a valid state can be read. -/
theorem Valid.selectedText (h : e.Valid) : e.selectedText.isSome = true := by
  rw [AddressEditor.selectedText]
  cases hselection : e.selection with
  | none => rfl
  | some ends =>
    obtain ⟨start, stop⟩ := ends
    obtain ⟨hstart, hstop, hle⟩ := h.selection hselection
    obtain ⟨middle, hslice⟩ := Offsets.exists_slice utf8Size_pos hstart hstop hle
    simp only [hslice]
    rfl

/-! ### Edits -/

theorem mem_pushBounded {history : List EditSnapshot} {s s' : EditSnapshot} (h : s' ∈ pushBounded history s) :
    s' = s ∨ s' ∈ history := by
  rw [pushBounded] at h
  refine (List.mem_cons.1 h).imp_right fun hmem => ?_
  split_ifs at hmem
  · exact List.mem_of_mem_dropLast hmem
  · exact hmem

/-- an edit is recorded, from a valid state to one whose positions are valid -/
theorem recordEdit_valid (h : e.Valid) (hnow : e'.snapshot.Valid) (hundo : e'.undoHistory = e.undoHistory)
    (hredo : e'.redoHistory = e.redoHistory) : (recordEdit e.snapshot e').Valid := by
  rw [recordEdit]
  split_ifs
  · refine ⟨hnow, ?_, nofun⟩
    intro s hmem
    rcases mem_pushBounded hmem with rfl | hmem
    · exact h.now
    · exact h.undo s (hundo ▸ hmem)
  · exact ⟨hnow, fun s hmem => h.undo s (hundo ▸ hmem), fun s hmem => h.redo s (hredo ▸ hmem)⟩

/-- how the deletion of the selection ends -/
inductive Deletes (e : AddressEditor) : Bool → AddressEditor → Prop
  | nothing (hselection : e.selection = none) : Deletes e false e
  | selected (text : Chars) (cursor : ℕ) (hcursor : OnBoundary text cursor) :
      Deletes e true { e with text, cursor, anchor := none }

theorem Valid.deleteSelectionRaw (h : e.Valid) : ∃ deleted e', e.deleteSelectionRaw = some (deleted, e') ∧
    Deletes e deleted e' := by
  rw [AddressEditor.deleteSelectionRaw]
  cases hselection : e.selection with
  | none => exact ⟨false, e, rfl, .nothing hselection⟩
  | some ends =>
    obtain ⟨start, stop⟩ := ends
    obtain ⟨hstart, hstop, hle⟩ := h.selection hselection
    obtain ⟨before, middle, after, htext, rfl, rfl⟩ := hstart.order utf8Size_pos hstop hle
    refine ⟨true, { e with text := before ++ after, cursor := Chars.byteLen before, anchor := none }, ?_,
      .selected _ _ (.append before after)⟩
    simp only [htext, Offsets.replaceRange_append utf8Size_pos, Option.bind_eq_bind, Option.bind_some, Option.pure_def,
      List.append_nil, Chars.byteLen]

/-- an anchor that selects nothing stands at the cursor -/
theorem anchor_of_selection_none (h : e.selection = none) {anchor : ℕ} (hanchor : e.anchor = some anchor) :
    anchor = e.cursor := by
  by_contra hne
  simp [AddressEditor.selection, hanchor, hne] at h

/-- a text goes in at the cursor; an anchor there stays before it -/
theorem Valid.insertText (h : e.Valid) (value : Chars) : ∃ e', e.insertText value = some e' ∧ e'.Valid := by
  obtain ⟨deleted, e₁, hdelete, hcases⟩ := h.deleteSelectionRaw
  have hsplit : ∃ before after, e₁.text = before ++ after ∧ Chars.byteLen before = e₁.cursor := by
    cases hcases with
    | nothing => exact h.cursor
    | selected text cursor hcursor => exact hcursor
  obtain ⟨before, after, htext, hcursor⟩ := hsplit
  have hreplace : Offsets.replaceRange Char.utf8Size e₁.text e₁.cursor e₁.cursor value = some (before ++ value ++ after) := by
    rw [htext, ← hcursor]
    have hinsert := Offsets.replaceRange_append utf8Size_pos before [] after value
    rw [List.append_nil] at hinsert
    exact hinsert
  refine ⟨recordEdit e.snapshot { e₁ with
    text := before ++ value ++ after, cursor := e₁.cursor + value.byteLen, preedit := [] }, ?_, ?_⟩
  · simp only [AddressEditor.insertText, hdelete, hreplace, Option.bind_eq_bind, Option.bind_some, Option.pure_def]
  · refine recordEdit_valid h ⟨?_, ?_⟩ ?_ ?_
    · refine ⟨before ++ value, after, rfl, ?_⟩
      rw [Offsets.total_append]
      exact congrArg (· + _) hcursor
    · intro anchor hanchor
      refine ⟨before, value ++ after, by rw [← List.append_assoc]; rfl, ?_⟩
      cases hcases with
      | nothing hselection => exact hcursor.trans (anchor_of_selection_none hselection hanchor).symm
      | selected => cases hanchor
    · cases hcases <;> rfl
    · cases hcases <;> rfl

theorem Valid.insert (h : e.Valid) (value : Chars) : ∃ e', e.insert value = some e' ∧ e'.Valid := by
  rw [AddressEditor.insert]
  split_ifs
  · exact ⟨e, rfl, h⟩
  · exact h.insertText _

/-- an anchor at the cursor is still at a boundary when the character before it is gone -/
def Steady (e : AddressEditor) : Prop :=
  e.anchor = some e.cursor → ∀ before after c, e.text = before ++ c :: after → Chars.byteLen (before ++ [c]) = e.cursor →
    OnBoundary (before ++ after) e.cursor

@[simp] theorem recordEdit_snapshot (before : EditSnapshot) (e : AddressEditor) :
    (recordEdit before e).snapshot = e.snapshot := by
  rw [recordEdit]
  split_ifs <;> rfl

/-- what is left of a text when a part at the cursor is gone -/
theorem replace_middle (before middle after : Chars) :
    Offsets.replaceRange Char.utf8Size (before ++ middle ++ after) before.byteLen (Chars.byteLen (before ++ middle)) [] =
      some (before ++ after) := by
  rw [Chars.byteLen, Chars.byteLen, Offsets.replaceRange_append utf8Size_pos, List.append_nil]

/-- **Backspace.** It leaves a valid state exactly when the state was steady. -/
theorem Valid.backspace (h : e.Valid) : ∃ e', e.backspace = some e' ∧ (e'.Valid ↔ e.Steady) := by
  have hvacuous : e.anchor ≠ some e.cursor → e.Steady := fun hne heq => absurd heq hne
  rw [AddressEditor.backspace]
  split_ifs with hstart
  · refine ⟨e, rfl, iff_of_true h ?_⟩
    intro _ before after c _ hcursor
    have hpos := utf8Size_pos c
    rw [hstart.2, Chars.byteLen, Offsets.total_append, Offsets.total_cons] at hcursor
    omega
  · obtain ⟨deleted, e₁, hdelete, hcases⟩ := h.deleteSelectionRaw
    simp only [hdelete, Option.bind_eq_bind, Option.bind_some]
    cases hcases with
    | selected text cursor hcursor =>
      refine ⟨_, rfl, iff_of_true (recordEdit_valid h ⟨hcursor, nofun⟩ rfl rfl) (hvacuous ?_)⟩
      intro heq
      have hnone : e.selection = none := by simp [AddressEditor.selection, heq]
      rw [AddressEditor.deleteSelectionRaw, hnone] at hdelete
      cases hdelete
    | nothing hselection =>
      obtain ⟨before, after, htext, hcursor⟩ := h.cursor
      -- there is a character before the cursor
      obtain ⟨c, rest, hrest⟩ : ∃ c rest, before = rest ++ [c] := by
        rcases List.eq_nil_or_concat before with rfl | ⟨rest, c, rfl⟩
        · exact absurd ⟨by rw [hselection]; rfl, hcursor.symm⟩ hstart
        · exact ⟨c, rest, by simp⟩
      rw [hrest] at htext hcursor
      have hprevious : previousBoundary e.text e.cursor = some (Chars.byteLen rest) := by
        rw [htext, ← hcursor]
        have hlast := previousBoundary_append (rest ++ [c]) after
        rw [List.dropLast_concat] at hlast
        exact hlast
      have hreplace : Offsets.replaceRange Char.utf8Size e.text (Chars.byteLen rest) e.cursor [] = some (rest ++ after) := by
        rw [htext, ← hcursor]
        exact replace_middle rest [c] after
      refine ⟨recordEdit e.snapshot { e with text := rest ++ after, cursor := Chars.byteLen rest, preedit := [] }, ?_, ?_⟩
      · simp [hprevious, hreplace]
      · constructor
        · intro hvalid hanchor before' after' c' htext' hcursor'
          have hanchor' := hvalid.now.anchor
          rw [recordEdit_snapshot] at hanchor'
          have hsame : rest ++ [c] = before' ++ [c'] ∧ after = after' := by
            refine Offsets.total_inj utf8Size_pos ?_ (hcursor.trans hcursor'.symm)
            rw [← htext, htext', List.append_assoc]
            rfl
          obtain ⟨rfl, -⟩ := List.append_inj' hsame.1 rfl
          rw [← hsame.2]
          exact hanchor' e.cursor hanchor
        · intro hsteady
          refine recordEdit_valid h ⟨.append rest after, ?_⟩ rfl rfl
          intro anchor hanchor
          have hsame := anchor_of_selection_none hselection hanchor
          rw [hsame] at hanchor
          rw [hsame]
          refine hsteady hanchor rest after c ?_ hcursor
          rw [htext, List.append_assoc]
          rfl

/-- what is deleted is behind the cursor, and behind an anchor that stands there -/
theorem Valid.delete (h : e.Valid) : ∃ e', e.delete = some e' ∧ e'.Valid := by
  rw [AddressEditor.delete]
  split_ifs
  · exact ⟨e, rfl, h⟩
  · obtain ⟨deleted, e₁, hdelete, hcases⟩ := h.deleteSelectionRaw
    simp only [hdelete, Option.bind_eq_bind, Option.bind_some]
    cases hcases with
    | selected text cursor hcursor => exact ⟨_, rfl, recordEdit_valid h ⟨hcursor, nofun⟩ rfl rfl⟩
    | nothing hselection =>
      obtain ⟨before, after, htext, hcursor⟩ := h.cursor
      obtain ⟨middle, rest, hafter, hnext, -⟩ := nextBoundary_append before after
      have hreplace : Offsets.replaceRange Char.utf8Size e.text e.cursor (Chars.byteLen (before ++ middle)) [] =
          some (before ++ rest) := by
        rw [htext, hafter, ← List.append_assoc, ← hcursor]
        exact replace_middle before middle rest
      have hnext' : nextBoundary e.text e.cursor = some (Chars.byteLen (before ++ middle)) := by
        rw [htext, ← hcursor]
        exact hnext
      refine ⟨recordEdit e.snapshot { e with text := before ++ rest, preedit := [] }, by simp [hnext', hreplace], ?_⟩
      have hboundary : OnBoundary (before ++ rest) e.cursor := ⟨before, rest, rfl, hcursor⟩
      refine recordEdit_valid h ⟨hboundary, ?_⟩ rfl rfl
      intro anchor hanchor
      rw [anchor_of_selection_none hselection hanchor]
      exact hboundary

/-! ### Moves and selections -/

theorem beginSelection_valid (h : e.Valid) (selecting : Bool) : (beginSelection selecting e).Valid := by
  rw [beginSelection]
  split_ifs
  · refine ⟨⟨h.cursor, ?_⟩, h.undo, h.redo⟩
    rintro anchor ⟨⟩
    exact h.cursor
  · exact h

theorem endSelection_valid (h : e.Valid) (selecting : Bool) : (endSelection selecting e).Valid := by
  rw [endSelection]
  split_ifs
  · exact ⟨⟨h.cursor, nofun⟩, h.undo, h.redo⟩
  · exact h

theorem moveTo_valid (h : e.Valid) (selecting : Bool) {position : ℕ} (hposition : OnBoundary e.text position) :
    (moveTo selecting position e).Valid := by
  have hbegin := beginSelection_valid h selecting
  have htext : (beginSelection selecting e).text = e.text := by
    rw [beginSelection]
    split_ifs <;> rfl
  rw [← htext] at hposition
  have hmoved : Valid { beginSelection selecting e with cursor := position } :=
    ⟨⟨hposition, fun anchor hanchor => hbegin.anchor hanchor⟩, hbegin.undo, hbegin.redo⟩
  exact endSelection_valid hmoved selecting

theorem Valid.moveLeft (h : e.Valid) (selecting : Bool) : ∃ e', e.moveLeft selecting = some e' ∧ e'.Valid := by
  obtain ⟨previous, hprevious, hboundary⟩ := previousBoundary_boundary h.cursor
  have hmove : ∃ e', (do return e.moveTo selecting (← previousBoundary e.text e.cursor)) = some e' ∧ e'.Valid :=
    ⟨_, by rw [hprevious]; rfl, moveTo_valid h selecting hboundary⟩
  cases selecting with
  | true => exact hmove
  | false =>
    cases hselection : e.selection with
    | none =>
      simp only [AddressEditor.moveLeft, hselection]
      exact hmove
    | some ends =>
      obtain ⟨hstart, -, -⟩ := h.selection hselection
      simp only [AddressEditor.moveLeft, hselection]
      exact ⟨_, rfl, h.positions hstart nofun⟩

theorem Valid.moveRight (h : e.Valid) (selecting : Bool) : ∃ e', e.moveRight selecting = some e' ∧ e'.Valid := by
  obtain ⟨next, hnext, hboundary⟩ := nextBoundary_boundary h.cursor
  have hmove : ∃ e', (do return e.moveTo selecting (← nextBoundary e.text e.cursor)) = some e' ∧ e'.Valid :=
    ⟨_, by rw [hnext]; rfl, moveTo_valid h selecting hboundary⟩
  cases selecting with
  | true => exact hmove
  | false =>
    cases hselection : e.selection with
    | none =>
      simp only [AddressEditor.moveRight, hselection]
      exact hmove
    | some ends =>
      obtain ⟨-, hstop, -⟩ := h.selection hselection
      simp only [AddressEditor.moveRight, hselection]
      exact ⟨_, rfl, h.positions hstop nofun⟩

/-- an anchor that is set where there is none -/
theorem Valid.anchored (h : e.Valid) {anchor : ℕ} (hanchor : (if e.anchor.isNone then some e.cursor else e.anchor) = some anchor) :
    OnBoundary e.text anchor := by
  split_ifs at hanchor
  · cases hanchor
    exact h.cursor
  · exact h.anchor hanchor

theorem beginPointerSelection_valid (h : e.Valid) (position : ℕ) (extend : Bool) :
    (beginPointerSelection position extend e).Valid := by
  have hposition := clampBoundary_boundary e.text position
  refine h.positions hposition ?_
  intro anchor hanchor
  cases extend with
  | true => exact h.anchored hanchor
  | false =>
    cases hanchor
    exact hposition

theorem extendPointerSelection_valid (h : e.Valid) (position : ℕ) : (extendPointerSelection position e).Valid :=
  h.positions (clampBoundary_boundary e.text position) fun _ hanchor => h.anchored hanchor

theorem finishPointerSelection_valid (h : e.Valid) : (finishPointerSelection e).Valid := by
  rw [finishPointerSelection]
  split_ifs
  · exact ⟨⟨h.cursor, nofun⟩, h.undo, h.redo⟩
  · exact h

theorem runStart_boundary {alphanumeric : Char → Bool} {text : Chars} {cls : CharacterClass} {rounds : ℕ} :
    ∀ {start : ℕ}, OnBoundary text start →
      ∃ start', runStart alphanumeric text cls rounds start = some start' ∧ OnBoundary text start' := by
  induction rounds with
  | zero => exact fun h => ⟨_, rfl, h⟩
  | succ rounds ih =>
    intro start h
    rw [runStart]
    split_ifs
    · exact ⟨_, rfl, h⟩
    · obtain ⟨previous, hprevious, hboundary, hle⟩ : ∃ previous, previousBoundary text start = some previous ∧
          OnBoundary text previous ∧ previous ≤ start := by
        obtain ⟨before, after, rfl, rfl⟩ := h
        refine ⟨_, previousBoundary_append before after, dropLast_boundary before after, ?_⟩
        have hwithin := dropLast_boundary before []
        rw [List.append_nil] at hwithin
        exact hwithin.le
      obtain ⟨middle, hslice⟩ := Offsets.exists_slice utf8Size_pos hboundary h hle
      simp only [hprevious, hslice, Option.bind_eq_bind, Option.bind_some]
      cases middle with
      | nil => exact ⟨_, rfl, h⟩
      | cons character rest =>
        simp only [List.head?_cons]
        split_ifs
        · exact ⟨_, rfl, h⟩
        · exact ih hboundary

theorem runEnd_boundary {alphanumeric : Char → Bool} {text : Chars} {cls : CharacterClass} {rounds : ℕ} :
    ∀ {stop : ℕ}, OnBoundary text stop →
      ∃ stop', runEnd alphanumeric text cls rounds stop = some stop' ∧ OnBoundary text stop' := by
  induction rounds with
  | zero => exact fun h => ⟨_, rfl, h⟩
  | succ rounds ih =>
    intro stop h
    rw [runEnd]
    split_ifs
    · exact ⟨_, rfl, h⟩
    · obtain ⟨next, hnext, hboundary⟩ := nextBoundary_boundary h
      obtain ⟨parts, hsplit⟩ := Option.isSome_iff_exists.1 ((Offsets.isSome_split utf8Size_pos).2 h)
      simp only [splitAt, hsplit, Option.bind_eq_bind, Option.bind_some]
      cases parts.2 with
      | nil => exact ⟨_, rfl, h⟩
      | cons character rest =>
        simp only [List.head?_cons]
        split_ifs
        · exact ⟨_, rfl, h⟩
        · rw [hnext]
          exact ih hboundary

theorem Valid.selectWordAt (h : e.Valid) (alphanumeric : Char → Bool) (position : ℕ) :
    ∃ e', e.selectWordAt alphanumeric position = some e' ∧ e'.Valid := by
  rw [AddressEditor.selectWordAt]
  split_ifs
  · exact ⟨_, rfl, h.positions (.zero _) nofun⟩
  · obtain ⟨start, hstart, hboundary⟩ : ∃ start, characterStart e.text (clampBoundary e.text position) = some start ∧
        OnBoundary e.text start := by
      have hclamped := clampBoundary_boundary e.text position
      rw [characterStart]
      split_ifs
      · exact previousBoundary_boundary hclamped
      · exact ⟨_, rfl, hclamped⟩
    obtain ⟨parts, hsplit⟩ := Option.isSome_iff_exists.1 ((Offsets.isSome_split utf8Size_pos).2 hboundary)
    simp only [hstart, splitAt, hsplit, Option.bind_eq_bind, Option.bind_some]
    cases parts.2 with
    | nil => exact ⟨e, rfl, h⟩
    | cons character rest =>
      obtain ⟨first, hfirst, hfirst'⟩ :=
        @runStart_boundary alphanumeric e.text (characterClass alphanumeric character) start start hboundary
      obtain ⟨next, hnext, hnext'⟩ := nextBoundary_boundary hboundary
      obtain ⟨last, hlast, hlast'⟩ :=
        @runEnd_boundary alphanumeric e.text (characterClass alphanumeric character) (e.text.byteLen - next) next hnext'
      simp only [List.head?_cons, hfirst, hnext, hlast, Option.bind_some]
      refine ⟨_, rfl, h.positions hlast' ?_⟩
      rintro anchor ⟨⟩
      exact hfirst'

/-! ### Commands -/

theorem undo_valid (h : e.Valid) : e.undo.2.Valid := by
  rw [AddressEditor.undo]
  cases hhistory : e.undoHistory with
  | nil => exact h
  | cons previous rest =>
    have hmem : ∀ s ∈ previous :: rest, s.Valid := fun s hmem => h.undo s (hhistory ▸ hmem)
    refine ⟨hmem previous List.mem_cons_self, fun s hin => hmem s (List.mem_cons_of_mem _ hin), ?_⟩
    intro s hin
    rcases mem_pushBounded hin with rfl | hin
    · exact h.now
    · exact h.redo s hin

theorem redo_valid (h : e.Valid) : e.redo.2.Valid := by
  rw [AddressEditor.redo]
  cases hhistory : e.redoHistory with
  | nil => exact h
  | cons next rest =>
    have hmem : ∀ s ∈ next :: rest, s.Valid := fun s hmem => h.redo s (hhistory ▸ hmem)
    refine ⟨hmem next List.mem_cons_self, ?_, fun s hin => hmem s (List.mem_cons_of_mem _ hin)⟩
    intro s hin
    rcases mem_pushBounded hin with rfl | hin
    · exact h.now
    · exact h.undo s hin

theorem Valid.cut (h : e.Valid) (clipboard : Clipboard) : ∃ result, e.cut clipboard = some result ∧ result.2.Valid := by
  obtain ⟨selected, hselected⟩ := Option.isSome_iff_exists.1 h.selectedText
  simp only [AddressEditor.cut, hselected, Option.bind_eq_bind, Option.bind_some, Option.pure_def]
  cases selected with
  | none => exact ⟨_, rfl, h⟩
  | some selection =>
    simp only
    split_ifs
    · obtain ⟨deleted, e₁, hdelete, hcases⟩ := h.deleteSelectionRaw
      rw [hdelete]
      refine ⟨_, rfl, ?_⟩
      cases hcases with
      | nothing => exact recordEdit_valid h h.now rfl rfl
      | selected text cursor hcursor => exact recordEdit_valid h ⟨hcursor, nofun⟩ rfl rfl
    · exact ⟨_, rfl, h⟩

theorem Valid.execute (h : e.Valid) (command : AddressCommand) (clipboard : Clipboard) :
    ∃ result, e.execute command clipboard = some result ∧ result.2.Valid := by
  cases command with
  | undo => exact ⟨_, rfl, undo_valid h⟩
  | redo => exact ⟨_, rfl, redo_valid h⟩
  | cut => exact h.cut clipboard
  | copy =>
    obtain ⟨selected, hselected⟩ := Option.isSome_iff_exists.1 h.selectedText
    simp only [AddressEditor.execute, hselected, Option.bind_eq_bind, Option.bind_some, Option.pure_def]
    cases selected <;> exact ⟨_, rfl, h⟩
  | paste =>
    rw [AddressEditor.execute]
    cases clipboard.readText with
    | none => exact ⟨_, rfl, h⟩
    | some value =>
      obtain ⟨e₁, hinsert, hvalid⟩ := h.insert value
      simp only [hinsert, Option.bind_eq_bind, Option.bind_some, Option.pure_def]
      exact ⟨_, rfl, hvalid⟩
  | delete =>
    obtain ⟨e₁, hdelete, hvalid⟩ := h.delete
    rw [AddressEditor.execute]
    split_ifs
    · exact ⟨_, rfl, h⟩
    · rw [hdelete]
      exact ⟨_, rfl, hvalid⟩
  | selectAll =>
    rw [AddressEditor.execute]
    split_ifs
    · exact ⟨_, rfl, h⟩
    · refine ⟨_, rfl, h.positions (.end _) ?_⟩
      rintro anchor ⟨⟩
      exact .zero _

end AddressEditor

end Render.Browser
