/-
A recursion that is run for a number of levels, and what it gathers from a list. Nothing here is about this repository.

- `Settles f t`: f gives t from some number of levels on, and nothing else at any number of levels.
- `gather f l`: what f gives for the elements of l, one after the other.
- `NoLonger r t P`: r is no longer than t; where it is as long, it is t, and P holds.

Both `Settles` and `NoLonger` go through `gather` (`Settles.gather`, `NoLonger.gather`).
-/
import Mathlib.Tactic

namespace Render.Core

variable {α β : Type}

/-- from some number of levels on the result is t, and it is never another -/
structure Settles (f : ℕ → Option β) (t : β) : Prop where
  eventually : ∃ k, ∀ j, k ≤ j → f j = some t
  only : ∀ k s, f k = some s → s = t

namespace Settles

variable {f : ℕ → Option β} {t : β}

theorem const (t : β) : Settles (fun _ => some t) t where
  eventually := ⟨0, fun _ _ => rfl⟩
  only _ _ h := (Option.some.inj h).symm

theorem map {γ : Type} (h : Settles f t) (g : β → γ) : Settles (fun k => (f k).map g) (g t) where
  eventually := by
    obtain ⟨k, hk⟩ := h.eventually
    exact ⟨k, fun j hj => by rw [hk j hj]; rfl⟩
  only k s hs := by
    obtain ⟨s', hs', rfl⟩ := Option.map_eq_some_iff.1 hs
    rw [h.only k s' hs']

/-- one level more -/
theorem succ {g : ℕ → Option β} (h : Settles f t) (h0 : g 0 = none) (hs : ∀ k, g (k + 1) = f k) : Settles g t where
  eventually := by
    obtain ⟨k, hk⟩ := h.eventually
    refine ⟨k + 1, fun j hj => ?_⟩
    obtain ⟨j, rfl⟩ : ∃ i, j = i + 1 := ⟨j - 1, by omega⟩
    rw [hs, hk j (by omega)]
  only k s hk := by
    cases k with
    | zero => rw [h0] at hk; cases hk
    | succ k => rw [hs] at hk; exact h.only k s hk

end Settles

/-- what f gives for the elements of the list, one after the other -/
def gather (f : α → Option (List β)) : List α → Option (List β)
  | [] => some []
  | a :: l => do
    let first ← f a
    let rest ← gather f l
    return first ++ rest

theorem gather_cons_eq_some {f : α → Option (List β)} {a : α} {l : List α} {s : List β} :
    gather f (a :: l) = some s ↔ ∃ first rest, f a = some first ∧ gather f l = some rest ∧ s = first ++ rest := by
  simp only [gather, Option.bind_eq_bind, Option.bind_eq_some_iff, Option.pure_def, Option.some.injEq]
  constructor
  · rintro ⟨first, h1, rest, h2, rfl⟩
    exact ⟨first, rest, h1, h2, rfl⟩
  · rintro ⟨first, rest, h1, h2, rfl⟩
    exact ⟨first, h1, rest, h2, rfl⟩

theorem Settles.gather {f : ℕ → α → Option (List β)} {text : α → List β} {l : List α}
    (h : ∀ a ∈ l, Settles (fun k => f k a) (text a)) : Settles (fun k => Core.gather (f k) l) (l.flatMap text) := by
  induction l with
  | nil => exact Settles.const []
  | cons a l ih =>
    obtain ⟨ha, hl⟩ := List.forall_mem_cons.1 h
    have ih := ih hl
    refine ⟨?_, fun k s hs => ?_⟩
    · obtain ⟨k1, hk1⟩ := ha.eventually
      obtain ⟨k2, hk2⟩ := ih.eventually
      refine ⟨max k1 k2, fun j hj => gather_cons_eq_some.2 ⟨_, _, hk1 j (by omega), hk2 j (by omega), ?_⟩⟩
      rw [List.flatMap_cons]
    · obtain ⟨first, rest, h1, h2, rfl⟩ := gather_cons_eq_some.1 hs
      rw [ha.only k _ h1, ih.only k _ h2, List.flatMap_cons]

/-- r is no longer than t; where it is as long, it is t, and P holds -/
structure NoLonger (r t : List β) (P : Prop) : Prop where
  le : r.length ≤ t.length
  eq : r.length = t.length → r = t ∧ P

namespace NoLonger

variable {r r' t t' : List β} {P Q : Prop}

theorem same (t : List β) (hP : P) : NoLonger t t P := ⟨le_rfl, fun _ => ⟨rfl, hP⟩⟩

theorem of_lt (h : r.length < t.length) : NoLonger r t P := ⟨h.le, fun he => absurd he (by omega)⟩

theorem imp (h : NoLonger r t P) (hPQ : P → Q) : NoLonger r t Q := ⟨h.le, fun he => (h.eq he).imp id hPQ⟩

theorem append (h : NoLonger r t P) (h' : NoLonger r' t' Q) : NoLonger (r ++ r') (t ++ t') (P ∧ Q) where
  le := by
    have := h.le
    have := h'.le
    simp only [List.length_append]
    omega
  eq he := by
    have hle := h.le
    have hle' := h'.le
    simp only [List.length_append] at he
    obtain ⟨rfl, hP⟩ := h.eq (by omega)
    obtain ⟨rfl, hQ⟩ := h'.eq (by omega)
    exact ⟨rfl, hP, hQ⟩

theorem gather {f : α → Option (List β)} {text : α → List β} {P : α → Prop} {l : List α} {s : List β}
    (h : ∀ a ∈ l, ∀ s, f a = some s → NoLonger s (text a) (P a)) (hs : gather f l = some s) :
    NoLonger s (l.flatMap text) (∀ a ∈ l, P a) := by
  induction l generalizing s with
  | nil =>
    obtain rfl := Option.some.inj hs
    exact same [] fun a ha => absurd ha List.not_mem_nil
  | cons a l ih =>
    obtain ⟨ha, hl⟩ := List.forall_mem_cons.1 h
    obtain ⟨first, rest, h1, h2, rfl⟩ := gather_cons_eq_some.1 hs
    rw [List.flatMap_cons]
    exact ((ha first h1).append (ih hl h2)).imp List.forall_mem_cons.2

end NoLonger

end Render.Core
