/-
Escaping: some characters of a text are replaced by references. Nothing here is about this repository.

- `not_mem_escape`: a replaced character that no reference holds is not in the escaped text.
- `length_escape`: references longer than one character make a text longer, unless it has no replaced character.
- `escape_marker`: where every reference is a marker followed by other characters, and the marker itself is replaced, each
  marker in the escaped text begins a reference.
-/
import Mathlib.Tactic

namespace Render.Core

variable {α : Type}

/-- each element is replaced by what the table has for it, and kept where the table has nothing -/
def escape (table : α → Option (List α)) (t : List α) : List α := t.flatMap fun a => (table a).getD [a]

variable {table : α → Option (List α)} {t : List α} {a : α}

theorem mem_escape : a ∈ escape table t ↔ (a ∈ t ∧ table a = none) ∨ ∃ b r, b ∈ t ∧ table b = some r ∧ a ∈ r := by
  unfold escape
  rw [List.mem_flatMap]
  constructor
  · rintro ⟨b, hb, ha⟩
    cases hr : table b with
    | none =>
      rw [hr] at ha
      obtain rfl := List.mem_singleton.1 ha
      exact Or.inl ⟨hb, hr⟩
    | some r =>
      rw [hr] at ha
      exact Or.inr ⟨b, r, hb, hr, ha⟩
  · rintro (⟨ha, hr⟩ | ⟨b, r, hb, hr, ha⟩)
    · exact ⟨a, ha, by simp [hr]⟩
    · exact ⟨b, hb, by simpa [hr] using ha⟩

theorem not_mem_escape (ha : table a ≠ none) (href : ∀ b r, table b = some r → a ∉ r) : a ∉ escape table t := by
  intro hmem
  rcases mem_escape.1 hmem with ⟨-, hnone⟩ | ⟨b, r, -, hr, har⟩
  · exact ha hnone
  · exact href b r hr har

theorem escape_cons (b : α) (t : List α) : escape table (b :: t) = (table b).getD [b] ++ escape table t := List.flatMap_cons

/-- a text without replaced characters is kept -/
theorem escape_of_none (h : ∀ a ∈ t, table a = none) : escape table t = t := by
  induction t with
  | nil => rfl
  | cons b t ih =>
    obtain ⟨hb, ht⟩ := List.forall_mem_cons.1 h
    rw [escape_cons, ih ht, hb]
    rfl

theorem length_le_escape (href : ∀ b r, table b = some r → 1 < r.length) (t : List α) :
    t.length ≤ (escape table t).length := by
  induction t with
  | nil => exact le_rfl
  | cons b t ih =>
    rw [escape_cons, List.length_append, List.length_cons]
    cases hb : table b with
    | none => simp only [Option.getD_none, List.length_singleton]; omega
    | some r =>
      have := href b r hb
      simp only [Option.getD_some]
      omega

/-- **Length.** Escaping leaves the length of a text only where it leaves the text. -/
theorem length_escape (href : ∀ b r, table b = some r → 1 < r.length) :
    (escape table t).length = t.length ↔ ∀ a ∈ t, table a = none := by
  refine ⟨fun h => ?_, fun h => by rw [escape_of_none h]⟩
  induction t with
  | nil => simp
  | cons b t ih =>
    have hle := length_le_escape href t
    rw [escape_cons, List.length_append, List.length_cons] at h
    cases hb : table b with
    | none =>
      simp only [hb, Option.getD_none, List.length_singleton] at h
      exact List.forall_mem_cons.2 ⟨hb, ih (by omega)⟩
    | some r =>
      have := href b r hb
      simp only [hb, Option.getD_some] at h
      omega

/-- **Markers.** In an escaped text a marker stands only at the beginning of a reference. -/
theorem escape_marker {mark : α} (hmark : table mark ≠ none)
    (href : ∀ b r, table b = some r → ∃ r', r = mark :: r' ∧ mark ∉ r') {before after : List α}
    (h : escape table t = before ++ mark :: after) : ∃ b r, table b = some (mark :: r) ∧ r <+: after := by
  induction t generalizing before with
  | nil => exact absurd h (by simp [escape])
  | cons c t ih =>
    rw [escape_cons, List.append_eq_append_iff] at h
    rcases h with ⟨rest, hbefore, hrest⟩ | ⟨rest, hfirst, hafter⟩
    · exact ih hrest
    · cases rest with
      | nil =>
        have hrest : escape table t = [] ++ mark :: after := by simpa using hafter.symm
        exact ih hrest
      | cons x rest =>
        obtain ⟨rfl, rfl⟩ := List.cons.inj hafter
        cases hc : table c with
        | none =>
          -- a character that is kept is not the marker
          rw [hc] at hfirst
          have hmem : mark ∈ [c] := by
            rw [show [c] = before ++ mark :: rest from hfirst]
            simp
          obtain rfl := List.mem_singleton.1 hmem
          exact absurd hc hmark
        | some r =>
          rw [hc] at hfirst
          obtain ⟨r', rfl, hr'⟩ := href c r hc
          cases before with
          | nil =>
            obtain rfl := (List.cons.inj hfirst).2
            exact ⟨c, _, hc, List.prefix_append _ _⟩
          | cons y before =>
            have hmem : mark ∈ r' := (List.cons.inj hfirst).2 ▸ by simp
            exact absurd hmem hr'

end Render.Core
