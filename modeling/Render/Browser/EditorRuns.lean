/-
Runs of the operations of the address editor: which of them keep every state valid (`editing_safe`).
-/
import Render.Browser.Editing

namespace Render.Browser

open Render.Core Render.Net AddressEditor

/-! ## Operations -/

inductive Op where
  | insert (value : Chars)
  | insertLineBreak
  | backspace
  | delete
  | moveLeft (selecting : Bool)
  | moveRight (selecting : Bool)
  | moveHome (selecting : Bool)
  | moveEnd (selecting : Bool)
  | placeCursor (position : ℕ) (selecting : Bool)
  | beginPointerSelection (position : ℕ) (extend : Bool)
  | extendPointerSelection (position : ℕ)
  | finishPointerSelection
  | selectWordAt (position : ℕ)
  | selectAll
  | execute (command : AddressCommand) (clipboard : Clipboard)
  | setPreedit (preedit : Chars)
  | noteImeCompositionEnd
  | takePendingImeEnter
  | setText (text : Chars)
  | setFocused (focused : Bool)

variable (alphanumeric : Char → Bool)

def Op.run (op : Op) (e : AddressEditor) : Option AddressEditor :=
  match op with
  | insert value => e.insert value
  | insertLineBreak => e.insertLineBreak
  | backspace => e.backspace
  | delete => e.delete
  | moveLeft selecting => e.moveLeft selecting
  | moveRight selecting => e.moveRight selecting
  | moveHome selecting => some (e.moveHome selecting)
  | moveEnd selecting => some (e.moveEnd selecting)
  | placeCursor position selecting => some (e.placeCursor position selecting)
  | beginPointerSelection position extend => some (e.beginPointerSelection position extend)
  | extendPointerSelection position => some (e.extendPointerSelection position)
  | finishPointerSelection => some e.finishPointerSelection
  | selectWordAt position => e.selectWordAt alphanumeric position
  | selectAll => some e.selectAll
  | execute command clipboard => (e.execute command clipboard).map Prod.snd
  | setPreedit preedit => some (e.setPreedit preedit)
  | noteImeCompositionEnd => some e.noteImeCompositionEnd
  | takePendingImeEnter => some e.takePendingImeEnter.2
  | setText text => some (e.setText text)
  | setFocused focused => some (e.setFocused focused)

def runOps : List Op → AddressEditor → Option AddressEditor
  | [], e => some e
  | op :: rest, e => (op.run alphanumeric e).bind (runOps rest)

/-- the operations that edit the text -/
def Op.IsEdit : Op → Prop
  | insert _ | insertLineBreak | backspace | delete => True
  | execute command _ => command = .cut ∨ command = .paste ∨ command = .delete
  | _ => False

/-- the operations that only move, select or compose -/
def Op.IsMove : Op → Prop
  | insert _ | insertLineBreak | backspace | delete | setText _ => False
  | execute command _ => command = .copy ∨ command = .selectAll
  | _ => True

variable {alphanumeric} {e e₁ e₂ : AddressEditor}

/-! ## Every state is valid -/

/-- **One operation.** From a valid state an operation leads to a state, which is valid when the operation is no `backspace`
in an unsteady state. -/
theorem Op.run_valid (op : Op) (h : e.Valid) :
    ∃ e', op.run alphanumeric e = some e' ∧ (e'.Valid ↔ (op = .backspace → e.Steady)) := by
  have hvalid : ∀ {o : Option AddressEditor}, op ≠ .backspace → (∃ e', o = some e' ∧ e'.Valid) →
      ∃ e', o = some e' ∧ (e'.Valid ↔ (op = .backspace → e.Steady)) := by
    rintro o hne ⟨e', hrun, hvalid⟩
    exact ⟨e', hrun, iff_of_true hvalid fun heq => absurd heq hne⟩
  cases op with
  | backspace =>
    obtain ⟨e', hrun, hiff⟩ := h.backspace
    exact ⟨e', hrun, hiff.trans ⟨fun hsteady _ => hsteady, fun hsteady => hsteady rfl⟩⟩
  | insert value => exact hvalid (by simp) (h.insert value)
  | insertLineBreak => exact hvalid (by simp) (h.insertText _)
  | delete => exact hvalid (by simp) h.delete
  | moveLeft selecting => exact hvalid (by simp) (h.moveLeft selecting)
  | moveRight selecting => exact hvalid (by simp) (h.moveRight selecting)
  | moveHome selecting => exact hvalid (by simp) ⟨_, rfl, moveTo_valid h selecting (.zero _)⟩
  | moveEnd selecting => exact hvalid (by simp) ⟨_, rfl, moveTo_valid h selecting (.end _)⟩
  | placeCursor position selecting =>
    exact hvalid (by simp) ⟨_, rfl, moveTo_valid h selecting (clampBoundary_boundary _ _)⟩
  | beginPointerSelection position extend => exact hvalid (by simp) ⟨_, rfl, beginPointerSelection_valid h position extend⟩
  | extendPointerSelection position => exact hvalid (by simp) ⟨_, rfl, extendPointerSelection_valid h position⟩
  | finishPointerSelection => exact hvalid (by simp) ⟨_, rfl, finishPointerSelection_valid h⟩
  | selectWordAt position => exact hvalid (by simp) (h.selectWordAt alphanumeric position)
  | selectAll =>
    refine hvalid (by simp) ⟨_, rfl, h.positions (.end _) ?_⟩
    rintro anchor ⟨⟩
    exact .zero _
  | execute command clipboard =>
    obtain ⟨result, hrun, hresult⟩ := h.execute command clipboard
    exact hvalid (by simp) ⟨result.2, congrArg (Option.map Prod.snd) hrun, hresult⟩
  | setPreedit preedit => exact hvalid (by simp) ⟨_, rfl, h.positions h.cursor fun _ => h.anchor⟩
  | noteImeCompositionEnd => exact hvalid (by simp) ⟨_, rfl, h.now, h.undo, h.redo⟩
  | takePendingImeEnter => exact hvalid (by simp) ⟨_, rfl, h.now, h.undo, h.redo⟩
  | setText text => exact hvalid (by simp) ⟨_, rfl, ⟨.end text, nofun⟩, nofun, nofun⟩
  | setFocused focused =>
    refine hvalid (by simp) ⟨_, rfl, ⟨h.cursor, ?_⟩, h.undo, h.redo⟩
    cases focused with
    | true => exact fun _ => h.anchor
    | false => nofun

/-! ## Undo and redo -/

/-- an edit is recorded, or nothing happened -/
theorem Op.IsEdit.records {op : Op} (hop : op.IsEdit) (hrun : op.run alphanumeric e = some e₁) :
    e₁ = e ∨ ∃ e', e₁ = recordEdit e.snapshot e' := by
  have hinsert : ∀ {value}, e.insertText value = some e₁ → e₁ = e ∨ ∃ e', e₁ = recordEdit e.snapshot e' := by
    intro value h
    obtain ⟨deleted, -, h⟩ := Option.bind_eq_some_iff.1 h
    obtain ⟨text, -, h⟩ := Option.bind_eq_some_iff.1 h
    exact .inr ⟨_, (Option.some.inj h).symm⟩
  have hfiltered : ∀ {value}, e.insert value = some e₁ → e₁ = e ∨ ∃ e', e₁ = recordEdit e.snapshot e' := by
    intro value h
    rw [AddressEditor.insert] at h
    split_ifs at h
    · exact .inl (Option.some.inj h).symm
    · exact hinsert h
  have hdelete : e.delete = some e₁ → e₁ = e ∨ ∃ e', e₁ = recordEdit e.snapshot e' := by
    intro h
    rw [AddressEditor.delete] at h
    split_ifs at h
    · exact .inl (Option.some.inj h).symm
    · obtain ⟨⟨deleted, e'⟩, -, h⟩ := Option.bind_eq_some_iff.1 h
      simp only at h
      split_ifs at h
      · exact .inr ⟨_, (Option.some.inj h).symm⟩
      · obtain ⟨next, -, h⟩ := Option.bind_eq_some_iff.1 h
        obtain ⟨text, -, h⟩ := Option.bind_eq_some_iff.1 h
        exact .inr ⟨_, (Option.some.inj h).symm⟩
  cases op with
  | insert value => exact hfiltered hrun
  | insertLineBreak => exact hinsert hrun
  | backspace =>
    rw [Op.run, AddressEditor.backspace] at hrun
    split_ifs at hrun
    · exact .inl (Option.some.inj hrun).symm
    · obtain ⟨⟨deleted, e'⟩, -, h⟩ := Option.bind_eq_some_iff.1 hrun
      simp only at h
      split_ifs at h
      · exact .inr ⟨_, (Option.some.inj h).symm⟩
      · obtain ⟨previous, -, h⟩ := Option.bind_eq_some_iff.1 h
        obtain ⟨text, -, h⟩ := Option.bind_eq_some_iff.1 h
        exact .inr ⟨_, (Option.some.inj h).symm⟩
  | delete => exact hdelete hrun
  | execute command clipboard =>
    obtain ⟨result, hresult, rfl⟩ := Option.map_eq_some_iff.1 hrun
    rcases hop with rfl | rfl | rfl
    · obtain ⟨selected, -, h⟩ := Option.bind_eq_some_iff.1 hresult
      cases selected with
      | none => exact .inl (congrArg Prod.snd (Option.some.inj h)).symm
      | some selection =>
        simp only at h
        split_ifs at h
        · obtain ⟨deleted, -, h⟩ := Option.bind_eq_some_iff.1 h
          exact .inr ⟨_, (congrArg Prod.snd (Option.some.inj h)).symm⟩
        · exact .inl (congrArg Prod.snd (Option.some.inj h)).symm
    · rw [AddressEditor.execute] at hresult
      cases hread : clipboard.readText with
      | none =>
        rw [hread] at hresult
        exact .inl (congrArg Prod.snd (Option.some.inj hresult)).symm
      | some value =>
        rw [hread] at hresult
        obtain ⟨e', hinserted, h⟩ := Option.bind_eq_some_iff.1 hresult
        have hsame : e' = result.2 := congrArg Prod.snd (Option.some.inj h)
        exact hfiltered (hsame ▸ hinserted)
    · rw [AddressEditor.execute] at hresult
      split_ifs at hresult
      · exact .inl (congrArg Prod.snd (Option.some.inj hresult)).symm
      · obtain ⟨e', hdeleted, h⟩ := Option.bind_eq_some_iff.1 hresult
        have hsame : e' = result.2 := congrArg Prod.snd (Option.some.inj h)
        exact hdelete (hsame ▸ hdeleted)
  | _ => exact hop.elim

theorem moveTo_keeps (selecting : Bool) (position : ℕ) (e : AddressEditor) :
    (moveTo selecting position e).text = e.text ∧ (moveTo selecting position e).undoHistory = e.undoHistory := by
  rw [moveTo, endSelection, beginSelection]
  split_ifs <;> exact ⟨rfl, rfl⟩

/-- a move that keeps the text and the edits to undo -/
theorem Op.IsMove.keeps {op : Op} (hop : op.IsMove) (hrun : op.run alphanumeric e = some e₁) :
    e₁.text = e.text ∧ e₁.undoHistory = e.undoHistory := by
  have hmoved : ∀ {selecting position}, some (e.moveTo selecting position) = some e₁ →
      e₁.text = e.text ∧ e₁.undoHistory = e.undoHistory := by
    intro selecting position h
    rw [← Option.some.inj h]
    exact moveTo_keeps selecting position e
  have hsame : ∀ {e' : AddressEditor}, some e' = some e₁ → e'.text = e.text → e'.undoHistory = e.undoHistory →
      e₁.text = e.text ∧ e₁.undoHistory = e.undoHistory := by
    rintro e' ⟨⟩ htext hhistory
    exact ⟨htext, hhistory⟩
  cases op with
  | moveLeft selecting =>
    rw [Op.run, AddressEditor.moveLeft.eq_def] at hrun
    split at hrun
    · exact hsame hrun rfl rfl
    · obtain ⟨position, -, h⟩ := Option.bind_eq_some_iff.1 hrun
      exact hmoved h
  | moveRight selecting =>
    rw [Op.run, AddressEditor.moveRight.eq_def] at hrun
    split at hrun
    · exact hsame hrun rfl rfl
    · obtain ⟨position, -, h⟩ := Option.bind_eq_some_iff.1 hrun
      exact hmoved h
  | moveHome selecting => exact hmoved hrun
  | moveEnd selecting => exact hmoved hrun
  | placeCursor position selecting => exact hmoved hrun
  | beginPointerSelection position extend => exact hsame hrun rfl rfl
  | extendPointerSelection position => exact hsame hrun rfl rfl
  | finishPointerSelection =>
    rw [Op.run, AddressEditor.finishPointerSelection] at hrun
    split_ifs at hrun <;> exact hsame hrun rfl rfl
  | selectWordAt position =>
    rw [Op.run, AddressEditor.selectWordAt] at hrun
    split_ifs at hrun
    · exact hsame hrun rfl rfl
    · obtain ⟨start, -, h⟩ := Option.bind_eq_some_iff.1 hrun
      obtain ⟨⟨before, after⟩, -, h⟩ := Option.bind_eq_some_iff.1 h
      cases after with
      | nil => exact hsame h rfl rfl
      | cons c rest =>
        obtain ⟨first, -, h⟩ := Option.bind_eq_some_iff.1 h
        obtain ⟨next, -, h⟩ := Option.bind_eq_some_iff.1 h
        obtain ⟨last, -, h⟩ := Option.bind_eq_some_iff.1 h
        exact hsame h rfl rfl
  | selectAll => exact hsame hrun rfl rfl
  | execute command clipboard =>
    obtain ⟨result, hresult, rfl⟩ := Option.map_eq_some_iff.1 hrun
    rcases hop with rfl | rfl
    · obtain ⟨selected, -, h⟩ := Option.bind_eq_some_iff.1 hresult
      cases selected <;> exact hsame (congrArg (Option.map Prod.snd) h) rfl rfl
    · rw [AddressEditor.execute] at hresult
      split_ifs at hresult <;> exact hsame (congrArg (Option.map Prod.snd) hresult) rfl rfl
  | setPreedit preedit => exact hsame hrun rfl rfl
  | noteImeCompositionEnd => exact hsame hrun rfl rfl
  | takePendingImeEnter => exact hsame hrun rfl rfl
  | setFocused focused => exact hsame hrun rfl rfl
  | _ => exact hop.elim

theorem runOps_moves {moves : List Op} : ∀ {e e₁ : AddressEditor}, (∀ op ∈ moves, op.IsMove) →
    runOps alphanumeric moves e = some e₁ → e₁.text = e.text ∧ e₁.undoHistory = e.undoHistory := by
  induction moves with
  | nil =>
    rintro e e₁ - ⟨⟩
    exact ⟨rfl, rfl⟩
  | cons op rest ih =>
    intro e e₁ hmoves hrun
    obtain ⟨e', hop, hrest⟩ := Option.bind_eq_some_iff.1 hrun
    obtain ⟨htext, hhistory⟩ := (hmoves op List.mem_cons_self).keeps hop
    obtain ⟨htext', hhistory'⟩ := ih (fun op hmem => hmoves op (List.mem_cons_of_mem _ hmem)) hrest
    exact ⟨htext'.trans htext, hhistory'.trans hhistory⟩

/-- an edit that changes something can be undone and redone, whatever was moved or selected since -/
def Undoes (alphanumeric : Char → Bool) (e : AddressEditor) : Prop :=
  ∀ edit : Op, edit.IsEdit → ∀ e₁, edit.run alphanumeric e = some e₁ → e₁.snapshot ≠ e.snapshot →
    ∀ moves : List Op, (∀ op ∈ moves, op.IsMove) → ∀ e₂, runOps alphanumeric moves e₁ = some e₂ →
      (e₂.undo.1 = true ∧ e₂.undo.2.text = e.text ∧ e₂.undo.2.cursor = e.cursor) ∧
      e₂.undo.2.redo.1 = true ∧ e₂.undo.2.redo.2.text = e₁.text ∧ e₂.undo.2.redo.2.cursor = e₂.cursor

theorem undoes (alphanumeric : Char → Bool) (e : AddressEditor) : Undoes alphanumeric e := by
  intro edit hedit e₁ hrun hchanged moves hmoves e₂ hmoved
  have hrecorded : ∃ rest, e₁.undoHistory = e.snapshot :: rest := by
    rcases hedit.records hrun with rfl | ⟨e', rfl⟩
    · exact absurd rfl hchanged
    · rw [recordEdit_snapshot] at hchanged
      rw [recordEdit, if_pos hchanged]
      exact ⟨_, rfl⟩
  obtain ⟨rest, hhistory⟩ := hrecorded
  obtain ⟨htext, hsame⟩ := runOps_moves hmoves hmoved
  rw [hhistory] at hsame
  have hundo : e₂.undo = (true, restore e.snapshot { e₂ with
      undoHistory := rest, redoHistory := pushBounded e₂.redoHistory e₂.snapshot }) := by
    rw [AddressEditor.undo, hsame]
  rw [hundo]
  exact ⟨⟨rfl, rfl, rfl⟩, rfl, htext, rfl⟩

/-! ## Runs -/

/-- no state of the run is invalid, and its selected text can be read -/
def SafeRun (alphanumeric : Char → Bool) (text : Chars) (ops : List Op) : Prop :=
  ∀ earlier later, ops = earlier ++ later →
    ∃ e, runOps alphanumeric earlier (new text) = some e ∧ e.Valid ∧ e.selectedText.isSome = true

/-- each `backspace` of the run is done in a steady state -/
def SteadyRun (alphanumeric : Char → Bool) (text : Chars) (ops : List Op) : Prop :=
  ∀ earlier later e, ops = earlier ++ .backspace :: later → runOps alphanumeric earlier (new text) = some e → e.Steady

theorem runOps_append (earlier later : List Op) (e : AddressEditor) :
    runOps alphanumeric (earlier ++ later) e = (runOps alphanumeric earlier e).bind (runOps alphanumeric later) := by
  induction earlier generalizing e with
  | nil => rfl
  | cons op rest ih =>
    rw [List.cons_append, runOps, runOps, Option.bind_assoc]
    exact Option.bind_congr fun e' _ => ih e'

theorem steady_valid {text : Chars} {ops : List Op} (h : SteadyRun alphanumeric text ops) :
    ∃ e, runOps alphanumeric ops (new text) = some e ∧ e.Valid := by
  induction ops using List.reverseRecOn with
  | nil => exact ⟨_, rfl, new_valid text⟩
  | append_singleton ops op ih =>
    obtain ⟨e, hrun, hvalid⟩ := ih fun earlier later e heq =>
      h earlier (later ++ [op]) e (by rw [heq, List.append_assoc, List.cons_append])
    obtain ⟨e', hop, hiff⟩ := @Op.run_valid alphanumeric e op hvalid
    refine ⟨e', ?_, hiff.2 ?_⟩
    · rw [runOps_append, hrun, Option.bind_some, runOps, hop]
      rfl
    · rintro rfl
      exact h ops [] e rfl hrun

/-- **Editing is safe.** The states of a run are valid, their selected text can be read, and their edits can be undone and
redone, exactly when each `backspace` is done in a steady state. -/
theorem editing_safe (alphanumeric : Char → Bool) (text : Chars) (ops : List Op) :
    (SafeRun alphanumeric text ops ∧ ∀ earlier later e, ops = earlier ++ later →
      runOps alphanumeric earlier (new text) = some e → Undoes alphanumeric e) ↔ SteadyRun alphanumeric text ops := by
  constructor
  · rintro ⟨hsafe, -⟩ earlier later e heq hrun
    obtain ⟨e₀, hrun₀, hvalid, -⟩ := hsafe earlier (.backspace :: later) heq
    rw [hrun, Option.some.injEq] at hrun₀
    obtain ⟨e₁, hrun₁, hvalid₁, -⟩ := hsafe (earlier ++ [.backspace]) later (by rw [heq, List.append_assoc]; rfl)
    obtain ⟨e', hop, hiff⟩ := @Op.run_valid alphanumeric e₀ .backspace hvalid
    rw [runOps_append, hrun, Option.bind_some, hrun₀, runOps, hop, Option.bind_some, runOps, Option.some.injEq] at hrun₁
    rw [← hrun₁] at hvalid₁
    rw [hrun₀]
    exact hiff.1 hvalid₁ rfl
  · intro hsteady
    refine ⟨?_, fun _ _ e _ _ => undoes alphanumeric e⟩
    rintro earlier later rfl
    have hearlier : SteadyRun alphanumeric text earlier := fun before after e heq =>
      hsteady before (after ++ later) e (by rw [heq, List.append_assoc, List.cons_append])
    obtain ⟨e, hrun, hvalid⟩ := steady_valid hearlier
    exact ⟨e, hrun, hvalid, hvalid.selectedText⟩

/-- the pointer goes down behind a character, which is then deleted: the anchor is left outside of the text -/
theorem anchor_left_behind : ¬ ∀ (alphanumeric : Char → Bool) (text : Chars) (ops : List Op),
    SafeRun alphanumeric text ops ∧ ∀ earlier later e, ops = earlier ++ later →
      runOps alphanumeric earlier (new text) = some e → Undoes alphanumeric e := by
  intro hall
  have hsafe := (hall Char.isAlphanum ['a'] [.beginPointerSelection 1 false, .backspace]).1
  obtain ⟨e, hrun, hvalid, -⟩ := hsafe _ [] (List.append_nil _).symm
  have hview : (runOps Char.isAlphanum [.beginPointerSelection 1 false, .backspace] (new ['a'])).map
      (fun e => (e.text, e.anchor)) = some ([], some 1) := by decide +kernel
  rw [hrun, Option.map_some, Option.some.injEq, Prod.mk.injEq] at hview
  have hle := (hvalid.anchor hview.2).le
  rw [hview.1] at hle
  exact absurd hle (by decide)

end Render.Browser
