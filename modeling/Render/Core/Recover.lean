/-
Recovery from errors and loops for computations over a state, and rules to build up a specification from those of the
parts. Nothing here is about this repository.

`loop body fuel b` runs `body` on a loop variable until it gives a result. It never returns when the fuel is used up
(`loop_returns` says when it is not).
-/
import Render.Core.Comp

namespace Render.Core.Comp

variable {σ ε α β : Type}

/-- hand an error to `handler`; the state is the one the error was raised in -/
def recover (m : Comp σ ε α) (handler : ε → Comp σ ε α) : Comp σ ε α := fun s =>
  match m s with
  | some (.error e, t) => handler e t
  | r => r

/-- the `loop` whose body gives the next loop variable or the result -/
def loop (body : β → Comp σ ε (β ⊕ α)) : ℕ → β → Comp σ ε α
  | 0, _ => diverge
  | fuel + 1, b => do
    match ← body b with
    | .inl b => loop body fuel b
    | .inr a => pure a

theorem recover_run (m : Comp σ ε α) (handler : ε → Comp σ ε α) (s : σ) : recover m handler s =
    match m s with
    | some (.error e, t) => handler e t
    | r => r := rfl

/-! ## Rules for specifications -/

section Spec

variable {P Q : σ → Prop} {R : Except ε α → σ → Prop} {S : Except ε β → σ → Prop}

theorem Spec.pure {a : α} (h : ∀ s, P s → R (.ok a) s) : Spec P (Pure.pure a) R := by
  intro s r t hs hrun
  simp only [pure_run, Option.some.injEq, Prod.mk.injEq] at hrun
  rw [← hrun.1, ← hrun.2]
  exact h s hs

theorem Spec.fail {e : ε} (h : ∀ s, P s → R (.error e) s) : Spec P (fail e) R := by
  intro s r t hs hrun
  simp only [fail_run, Option.some.injEq, Prod.mk.injEq] at hrun
  rw [← hrun.1, ← hrun.2]
  exact h s hs

theorem Spec.check {f : σ → Except ε α} (h : ∀ s, P s → R (f s) s) : Spec P (check f) R := by
  intro s r t hs hrun
  simp only [check_run, Option.some.injEq, Prod.mk.injEq] at hrun
  rw [← hrun.1, ← hrun.2]
  exact h s hs

theorem Spec.modify {f : σ → σ} {R : Except ε Unit → σ → Prop} (h : ∀ s, P s → R (.ok ()) (f s)) :
    Spec P (modify f) R := by
  intro s r t hs hrun
  simp only [modify_run, Option.some.injEq, Prod.mk.injEq] at hrun
  rw [← hrun.1, ← hrun.2]
  exact h s hs

theorem Spec.bind {m : Comp σ ε α} {f : α → Comp σ ε β} (hm : Spec P m R)
    (hf : ∀ a, Spec (R (.ok a)) (f a) S) (he : ∀ e s, R (.error e) s → S (.error e) s) : Spec P (m >>= f) S := by
  intro s r t hs hrun
  rcases bind_returns hrun with ⟨e, hm', rfl⟩ | ⟨a, u, hm', hf'⟩
  · exact he e t (hm s _ t hs hm')
  · exact hf a u r t (hm s _ u hs hm') hf'

theorem Spec.weaken {m : Comp σ ε α} {P' : σ → Prop} {R' : Except ε α → σ → Prop} (hm : Spec P m R)
    (hpre : ∀ s, P' s → P s) (hpost : ∀ r s, R r s → R' r s) : Spec P' m R' := by
  intro s r t hs hrun
  exact hpost r t (hm s r t (hpre s hs) hrun)

/-- a loop with the invariant `I` -/
theorem Spec.loop {body : β → Comp σ ε (β ⊕ α)} {I : β → σ → Prop} (fuel : ℕ)
    (hbody : ∀ b, Spec (I b) (body b) fun r t =>
      match r with
      | .ok (.inl b) => I b t
      | .ok (.inr a) => R (.ok a) t
      | .error e => R (.error e) t) :
    ∀ b, Spec (I b) (loop body fuel b) R := by
  induction fuel with
  | zero =>
    intro b s r t _ hrun
    exact absurd hrun (by simp [Comp.loop])
  | succ fuel ih =>
    intro b
    refine Spec.bind (hbody b) ?_ ?_
    · intro next
      cases next with
      | inl b => exact ih b
      | inr a => exact Spec.pure fun s hs => hs
    · intro e s hs
      exact hs

end Spec

/-! ## Rules for invariants -/

theorem Keeps.recover {P : σ → Prop} {m : Comp σ ε α} {handler : ε → Comp σ ε α} (hm : Keeps P m)
    (hh : ∀ e, Keeps P (handler e)) : Keeps P (recover m handler) := by
  intro s r t hs hrun
  rw [recover_run] at hrun
  split at hrun
  · rename_i e u hm'
    exact hh e u r t (hm s _ u hs hm') hrun
  · exact hm s r t hs hrun

/-! ## Loops that end -/

/-- every run of `m` returns, with a value or an error -/
def Total (m : Comp σ ε α) : Prop := ∀ s, ∃ r t, m s = some (r, t)

namespace Total

theorem pure (a : α) : Total (Pure.pure a : Comp σ ε α) := fun s => ⟨_, s, rfl⟩

theorem fail (e : ε) : Total (Comp.fail e : Comp σ ε α) := fun s => ⟨_, s, rfl⟩

theorem check (f : σ → Except ε α) : Total (Comp.check f) := fun s => ⟨_, s, rfl⟩

theorem modify (f : σ → σ) : Total (Comp.modify f : Comp σ ε Unit) := fun s => ⟨_, f s, rfl⟩

theorem bind {m : Comp σ ε α} {f : α → Comp σ ε β} (hm : Total m) (hf : ∀ a, Total (f a)) : Total (m >>= f) := by
  intro s
  obtain ⟨r, t, hrun⟩ := hm s
  cases r with
  | error e => exact ⟨_, t, bind_run_error hrun⟩
  | ok a =>
    rw [bind_run_ok hrun]
    exact hf a t

theorem ite {c : Prop} [Decidable c] {m n : Comp σ ε α} (hm : Total m) (hn : Total n) : Total (if c then m else n) := by
  split_ifs
  · exact hm
  · exact hn

theorem when {c : Prop} [Decidable c] {m : Comp σ ε Unit} (hm : Total m) : Total (when c m) := ite hm (pure ())

theorem whenSome {o : Option β} {body : β → Comp σ ε Unit} (hbody : ∀ b, Total (body b)) :
    Total (whenSome o body) := by
  cases o with
  | none => exact pure ()
  | some b => exact hbody b

theorem forEach {body : β → Comp σ ε Unit} (l : List β) (hbody : ∀ b, Total (body b)) : Total (forEach body l) := by
  induction l with
  | nil => exact pure ()
  | cons b rest ih => exact bind (hbody b) fun _ => ih

theorem recover {m : Comp σ ε α} {handler : ε → Comp σ ε α} (hm : Total m) (hh : ∀ e, Total (handler e)) :
    Total (recover m handler) := by
  intro s
  obtain ⟨r, t, hrun⟩ := hm s
  rw [recover_run, hrun]
  cases r with
  | error e => exact hh e t
  | ok a => exact ⟨_, t, rfl⟩

end Total

end Render.Core.Comp
