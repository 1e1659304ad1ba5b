/-
Runs as paths of a step relation. Nothing here is about this repository.

`Follows R m` says that every run of `m` goes from its first state to its last along steps of `R`. It is proved once for a
computation, by the steps that its parts make; every predicate that the steps of `R` keep is then kept by the computation
(`Keeps.of_follows`). `FollowsFrom R m s` is the same for the runs that start in `s`: a step may need what was read before.
-/
import Mathlib.Data.List.Basic
import Render.Core.Recover

namespace Render.Core.Comp

variable {σ ε α β : Type} {R : σ → σ → Prop}

/-- the runs from `s` go along steps of `R` -/
def FollowsFrom (R : σ → σ → Prop) (m : Comp σ ε α) (s : σ) : Prop :=
  ∀ r t, m s = some (r, t) → Relation.ReflTransGen R s t

/-- all runs go along steps of `R` -/
def Follows (R : σ → σ → Prop) (m : Comp σ ε α) : Prop := ∀ s, FollowsFrom R m s

/-- **Invariants.** What the steps keep, the computation keeps. -/
theorem Keeps.of_follows {P : σ → Prop} {m : Comp σ ε α} (h : Follows R m) (hstep : ∀ s t, R s t → P s → P t) :
    Keeps P m := by
  intro s r t hs hrun
  have hpath := h s r t hrun
  clear hrun
  induction hpath with
  | refl => exact hs
  | tail _ hlast ih => exact hstep _ _ hlast ih

namespace FollowsFrom

variable {s : σ}

theorem pure (a : α) : FollowsFrom R (Pure.pure a : Comp σ ε α) s := by
  intro r t hrun
  cases hrun
  exact .refl

theorem fail (e : ε) : FollowsFrom R (Comp.fail e : Comp σ ε α) s := by
  intro r t hrun
  cases hrun
  exact .refl

theorem modify {f : σ → σ} (hstep : R s (f s)) : FollowsFrom R (Comp.modify f : Comp σ ε Unit) s := by
  intro r t hrun
  cases hrun
  exact .single hstep

theorem bind {m : Comp σ ε α} {f : α → Comp σ ε β} (hm : FollowsFrom R m s)
    (hf : ∀ a t, m s = some (.ok a, t) → FollowsFrom R (f a) t) : FollowsFrom R (m >>= f) s := by
  intro r t hrun
  rcases bind_returns hrun with ⟨e, hm', -⟩ | ⟨a, u, hm', hf'⟩
  · exact hm _ t hm'
  · exact (hm _ u hm').trans (hf a u hm' r t hf')

theorem ite {c : Prop} [Decidable c] {m n : Comp σ ε α} (hm : c → FollowsFrom R m s) (hn : ¬ c → FollowsFrom R n s) :
    FollowsFrom R (if c then m else n) s := by
  split_ifs with h
  · exact hm h
  · exact hn h

end FollowsFrom

namespace Follows

theorem pure (a : α) : Follows R (Pure.pure a : Comp σ ε α) := fun _ => .pure a

theorem fail (e : ε) : Follows R (Comp.fail e : Comp σ ε α) := fun _ => .fail e

theorem bind {m : Comp σ ε α} {f : α → Comp σ ε β} (hm : Follows R m) (hf : ∀ a, Follows R (f a)) :
    Follows R (m >>= f) := fun s => (hm s).bind fun a t _ => hf a t

theorem ite {c : Prop} [Decidable c] {m n : Comp σ ε α} (hm : Follows R m) (hn : Follows R n) :
    Follows R (if c then m else n) := fun s => .ite (fun _ => hm s) fun _ => hn s

theorem when {c : Prop} [Decidable c] {m : Comp σ ε Unit} (hm : Follows R m) : Follows R (when c m) := hm.ite (.pure ())

theorem forEach {body : β → Comp σ ε Unit} (l : List β) (hbody : ∀ b ∈ l, Follows R (body b)) :
    Follows R (forEach body l) := by
  induction l with
  | nil => exact .pure ()
  | cons b rest ih =>
    refine .bind (hbody b List.mem_cons_self) fun _ => ?_
    exact ih fun b' hmem => hbody b' (List.mem_cons_of_mem b hmem)

end Follows

end Render.Core.Comp

/-! Properties of the events of a trace, each with the events before it. Nothing here is about this repository. -/

namespace Render.Core

variable {ε : Type}

/-- every event is right after those before it -/
def Each (P : List ε → ε → Prop) (trace : List ε) : Prop :=
  ∀ before event after, trace = before ++ event :: after → P before event

variable {P Q : List ε → ε → Prop} {trace more : List ε} {event : ε}

theorem each_nil : Each P [] := fun before event after h => by simp at h

theorem Each.append (h : Each P trace) (hmore : Each (fun before => P (trace ++ before)) more) : Each P (trace ++ more) := by
  intro before event after heq
  rcases List.append_eq_append_iff.1 heq with ⟨middle, hbefore, hrest⟩ | ⟨middle, htrace, hrest⟩
  · rw [hbefore]
    exact hmore middle event after hrest
  · cases middle with
    | nil =>
      rw [List.append_nil] at htrace
      rw [List.nil_append] at hrest
      have hfirst := hmore [] event after hrest.symm
      simpa only [List.append_nil, htrace] using hfirst
    | cons first others =>
      rw [List.cons_append, List.cons.injEq] at hrest
      exact h before event others (by rw [htrace, hrest.1])

theorem each_singleton : Each P [event] ↔ P [] event := by
  constructor
  · intro h
    exact h [] event [] rfl
  · intro h before event' after heq
    cases before with
    | nil =>
      rw [List.nil_append, List.cons.injEq] at heq
      rw [← heq.1]
      exact h
    | cons first others => simp at heq

theorem Each.concat (h : Each P trace) (hevent : P trace event) : Each P (trace ++ [event]) :=
  h.append (each_singleton.2 (by rwa [List.append_nil]))

/-- the events that satisfy it whatever is before them -/
theorem each_of_forall (h : ∀ event ∈ more, ∀ before, P before event) : Each P more := by
  intro before event after heq
  refine h event ?_ before
  rw [heq]
  exact List.mem_append_right _ List.mem_cons_self

end Render.Core
