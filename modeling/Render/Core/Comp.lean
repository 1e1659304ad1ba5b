/-
Fallible computations over a state, and the rules to reason about them. Nothing here is about this repository.

A `Comp σ ε α` reads and writes a state of type σ. A run either never returns (`none`: a loop that does not end), or
returns a value or an error, and on both it leaves a state: an error does not undo the writes made before it.

- `Spec P m Q`: every run of `m` that starts in a `P` state and returns ends in `Q result state`.
- `Keeps P m`: every run that returns keeps `P`, whether it returns a value or an error.
- `Runs P m Q`: every run from `P` that returns does not fail, and ends in `Q`.
- `Returns P m Q`: every run from `P` returns, and ends in `Q result state`.
-/
import Mathlib.Tactic

namespace Render.Core

/-- a check that fails with `e` when `c` holds -/
def refuse {ε : Type} (c : Prop) [Decidable c] (e : ε) : Except ε Unit := if c then .error e else .ok ()

theorem refuse_eq_ok {ε : Type} {c : Prop} [Decidable c] {e : ε} {u : Unit} : refuse c e = .ok u ↔ ¬ c := by
  unfold refuse
  split_ifs with h <;> simp [h]

theorem bind_eq_ok {ε α β : Type} {x : Except ε α} {f : α → Except ε β} {b : β} :
    (x >>= f) = .ok b ↔ ∃ a, x = .ok a ∧ f a = .ok b := by
  cases x <;> simp [bind, Except.bind]

theorem pure_eq_ok {ε α : Type} {a b : α} : (pure a : Except ε α) = .ok b ↔ a = b := by
  show Except.ok a = Except.ok b ↔ a = b
  rw [Except.ok.injEq]

/-- a computation over the state σ: `none` when it never returns, otherwise its result and the state it leaves -/
def Comp (σ ε α : Type) := σ → Option (Except ε α × σ)

namespace Comp

variable {σ ε α β : Type}

def bind (m : Comp σ ε α) (f : α → Comp σ ε β) : Comp σ ε β := fun s =>
  match m s with
  | none => none
  | some (.error e, t) => some (.error e, t)
  | some (.ok a, t) => f a t

instance : Monad (Comp σ ε) where
  pure a := fun s => some (.ok a, s)
  bind := bind

/-- the current state -/
def get : Comp σ ε σ := fun s => some (.ok s, s)

/-- write the state -/
def modify (f : σ → σ) : Comp σ ε Unit := fun s => some (.ok (), f s)

/-- stop with an error and leave the state as it is -/
def fail (e : ε) : Comp σ ε α := fun s => some (.error e, s)

/-- a check that reads the state and may fail -/
def check (f : σ → Except ε α) : Comp σ ε α := fun s => some (f s, s)

/-- stop with `e` when `c` holds -/
def failIf (c : Prop) [Decidable c] (e : ε) : Comp σ ε Unit := check fun _ => refuse c e

/-- a step that is only made when `c` holds -/
def when (c : Prop) [Decidable c] (m : Comp σ ε Unit) : Comp σ ε Unit := if c then m else pure ()

/-- a step that is made with the value, when there is one -/
def whenSome (o : Option β) (body : β → Comp σ ε Unit) : Comp σ ε Unit :=
  match o with
  | some b => body b
  | none => pure ()

/-- read the state through a loop, which may never end -/
def await (f : σ → Option α) : Comp σ ε α := fun s => (f s).map fun a => (.ok a, s)

/-- write the state through a loop, which may never end -/
def awaitModify (f : σ → Option σ) : Comp σ ε Unit := fun s => (f s).map fun t => (.ok (), t)

/-- never return -/
def diverge : Comp σ ε α := fun _ => none

/-- the `for` loop over a list that is computed before it starts -/
def forEach (body : β → Comp σ ε Unit) : List β → Comp σ ε Unit
  | [] => pure ()
  | b :: rest => do
    body b
    forEach body rest

@[simp] theorem pure_run (a : α) (s : σ) : (pure a : Comp σ ε α) s = some (.ok a, s) := rfl
@[simp] theorem get_run (s : σ) : (get : Comp σ ε σ) s = some (.ok s, s) := rfl
@[simp] theorem modify_run (f : σ → σ) (s : σ) : (modify f : Comp σ ε Unit) s = some (.ok (), f s) := rfl
@[simp] theorem fail_run (e : ε) (s : σ) : (fail e : Comp σ ε α) s = some (.error e, s) := rfl
@[simp] theorem check_run (f : σ → Except ε α) (s : σ) : (check f) s = some (f s, s) := rfl
@[simp] theorem await_run (f : σ → Option α) (s : σ) :
    (await f : Comp σ ε α) s = (f s).map fun a => (.ok a, s) := rfl
@[simp] theorem awaitModify_run (f : σ → Option σ) (s : σ) :
    (awaitModify f : Comp σ ε Unit) s = (f s).map fun t => (.ok (), t) := rfl
@[simp] theorem diverge_run (s : σ) : (diverge : Comp σ ε α) s = none := rfl

theorem bind_run (m : Comp σ ε α) (f : α → Comp σ ε β) (s : σ) : (m >>= f) s =
    match m s with
    | none => none
    | some (.error e, t) => some (.error e, t)
    | some (.ok a, t) => f a t := rfl

/-- a first step that returns a value hands the rest of the run to the continuation -/
theorem bind_run_ok {m : Comp σ ε α} {f : α → Comp σ ε β} {s t : σ} {a : α} (h : m s = some (.ok a, t)) :
    (m >>= f) s = f a t := by
  rw [bind_run, h]

theorem bind_run_error {m : Comp σ ε α} {f : α → Comp σ ε β} {s t : σ} {e : ε} (h : m s = some (.error e, t)) :
    (m >>= f) s = some (.error e, t) := by
  rw [bind_run, h]

@[simp] theorem get_bind (f : σ → Comp σ ε β) (s : σ) : (get >>= f) s = f s s := rfl
@[simp] theorem pure_bind (a : α) (f : α → Comp σ ε β) : (pure a >>= f) = f a := rfl
@[simp] theorem modify_bind (g : σ → σ) (f : Unit → Comp σ ε β) (s : σ) : (modify g >>= f) s = f () (g s) := rfl

theorem awaitModify_bind (g : σ → Option σ) (f : Unit → Comp σ ε β) (s : σ) :
    (awaitModify g >>= f) s = (g s).bind fun t => f () t := by
  rw [bind_run, awaitModify_run]
  cases g s <;> rfl

theorem awaitModify_ok {f : σ → Option σ} {s t : σ} {u : Unit}
    (h : (awaitModify f : Comp σ ε Unit) s = some (.ok u, t)) : f s = some t := by
  rw [awaitModify_run, Option.map_eq_some_iff] at h
  obtain ⟨t', hf, ht⟩ := h
  rw [hf, (Prod.mk.inj ht).2]

theorem map_run (g : α → β) (m : Comp σ ε α) (s : σ) :
    (g <$> m) s = (m s).map fun p => (p.1.map g, p.2) := by
  show (m >>= fun a => pure (g a)) s = _
  rw [bind_run]
  rcases m s with _ | ⟨_ | _, t⟩ <;> rfl

/-- a run of `m >>= f` that returns is an error of `m`, or a value of `m` followed by a run of `f` -/
theorem bind_returns {m : Comp σ ε α} {f : α → Comp σ ε β} {s t : σ} {r : Except ε β}
    (h : (m >>= f) s = some (r, t)) :
    (∃ e, m s = some (.error e, t) ∧ r = .error e) ∨ ∃ a u, m s = some (.ok a, u) ∧ f a u = some (r, t) := by
  rw [bind_run] at h
  rcases hm : m s with _ | ⟨e | a, u⟩
  · rw [hm] at h; exact absurd h (by simp)
  · rw [hm] at h
    simp only [Option.some.injEq, Prod.mk.injEq] at h
    exact Or.inl ⟨e, by rw [← h.2], h.1.symm⟩
  · rw [hm] at h; exact Or.inr ⟨a, u, rfl, h⟩

/-- a run of `m >>= f` that returns a value ran `m` to a value first -/
theorem bind_ok {m : Comp σ ε α} {f : α → Comp σ ε β} {s t : σ} {b : β}
    (h : (m >>= f) s = some (.ok b, t)) : ∃ a u, m s = some (.ok a, u) ∧ f a u = some (.ok b, t) := by
  rcases bind_returns h with ⟨e, _, hr⟩ | h
  · exact absurd hr (by simp)
  · exact h

/-! ## Specifications -/

/-- every run of `m` that starts in a `P` state and returns ends in `Q` -/
def Spec (P : σ → Prop) (m : Comp σ ε α) (Q : Except ε α → σ → Prop) : Prop :=
  ∀ s r t, P s → m s = some (r, t) → Q r t

/-- every run of `m` that returns keeps `P`, whether it returns a value or an error -/
def Keeps (P : σ → Prop) (m : Comp σ ε α) : Prop := ∀ s r t, P s → m s = some (r, t) → P t

section Keeps

variable {P : σ → Prop}

theorem Keeps.pure (a : α) : Keeps P (Pure.pure a : Comp σ ε α) := by
  rintro s r t hs h; simp only [pure_run, Option.some.injEq, Prod.mk.injEq] at h; exact h.2 ▸ hs

theorem Keeps.get : Keeps P (get : Comp σ ε σ) := by
  rintro s r t hs h; simp only [get_run, Option.some.injEq, Prod.mk.injEq] at h; exact h.2 ▸ hs

theorem Keeps.modify {f : σ → σ} (hf : ∀ s, P s → P (f s)) : Keeps P (modify f : Comp σ ε Unit) := by
  rintro s r t hs h; simp only [modify_run, Option.some.injEq, Prod.mk.injEq] at h; exact h.2 ▸ hf s hs

theorem Keeps.fail (e : ε) : Keeps P (fail e : Comp σ ε α) := by
  rintro s r t hs h; simp only [fail_run, Option.some.injEq, Prod.mk.injEq] at h; exact h.2 ▸ hs

theorem Keeps.check (f : σ → Except ε α) : Keeps P (check f) := by
  rintro s r t hs h; simp only [check_run, Option.some.injEq, Prod.mk.injEq] at h; exact h.2 ▸ hs

theorem Keeps.await (f : σ → Option α) : Keeps P (await f : Comp σ ε α) := by
  rintro s r t hs h
  simp only [await_run, Option.map_eq_some_iff, Prod.mk.injEq] at h
  obtain ⟨_, _, _, h⟩ := h; exact h ▸ hs

theorem Keeps.awaitModify {f : σ → Option σ} (hf : ∀ s t, P s → f s = some t → P t) :
    Keeps P (awaitModify f : Comp σ ε Unit) := by
  rintro s r t hs h
  simp only [awaitModify_run, Option.map_eq_some_iff, Prod.mk.injEq] at h
  obtain ⟨u, hu, _, h⟩ := h; exact h ▸ hf s u hs hu

theorem Keeps.diverge : Keeps P (diverge : Comp σ ε α) := by
  rintro s r t _ h; exact absurd h (by simp)

theorem Keeps.bind {m : Comp σ ε α} {f : α → Comp σ ε β} (hm : Keeps P m) (hf : ∀ a, Keeps P (f a)) :
    Keeps P (m >>= f) := by
  rintro s r t hs h
  rcases bind_returns h with ⟨e, h, _⟩ | ⟨a, u, hu, h⟩
  · exact hm s _ t hs h
  · exact hf a u r t (hm s _ u hs hu) h

/-- the continuation may use that it starts from a value and a state the first step really reaches -/
theorem Keeps.bind_of {m : Comp σ ε α} {f : α → Comp σ ε β} (hm : Keeps P m)
    (hf : ∀ s a u, P s → P u → m s = some (.ok a, u) → ∀ r t, f a u = some (r, t) → P t) : Keeps P (m >>= f) := by
  rintro s r t hs h
  rcases bind_returns h with ⟨e, h, _⟩ | ⟨a, u, hu, h⟩
  · exact hm s _ t hs h
  · exact hf s a u hs (hm s _ u hs hu) hu r t h

theorem Keeps.map {m : Comp σ ε α} (g : α → β) (hm : Keeps P m) : Keeps P (g <$> m) :=
  Keeps.bind hm fun _ => Keeps.pure _

theorem Keeps.forEach {body : β → Comp σ ε Unit} (l : List β) (hb : ∀ b ∈ l, Keeps P (body b)) :
    Keeps P (forEach body l) := by
  induction l with
  | nil => exact Keeps.pure ()
  | cons b rest ih =>
    exact Keeps.bind (hb b List.mem_cons_self) fun _ => ih fun b' hb' => hb b' (List.mem_cons_of_mem b hb')

theorem Keeps.ite {c : Prop} [Decidable c] {m n : Comp σ ε α} (hm : c → Keeps P m) (hn : ¬ c → Keeps P n) :
    Keeps P (if c then m else n) := by
  split_ifs with h
  · exact hm h
  · exact hn h

theorem Keeps.failIf (c : Prop) [Decidable c] (e : ε) : Keeps P (failIf c e : Comp σ ε Unit) := Keeps.check _

theorem Keeps.when {c : Prop} [Decidable c] {m : Comp σ ε Unit} (hm : Keeps P m) : Keeps P (when c m) :=
  Keeps.ite (fun _ => hm) fun _ => Keeps.pure ()

theorem Keeps.whenSome {o : Option β} {body : β → Comp σ ε Unit} (hb : ∀ b, o = some b → Keeps P (body b)) :
    Keeps P (whenSome o body) := by
  cases o with
  | none => exact Keeps.pure ()
  | some b => exact hb b rfl

end Keeps

/-! ## Steps that do not fail -/

/-- every run of `m` that starts in `P` and returns, returns a value and ends in `Q` -/
def Runs (P : σ → Prop) (m : Comp σ ε α) (Q : σ → Prop) : Prop := Spec P m fun r t => (∃ a, r = .ok a) ∧ Q t

section Runs

variable {P Q R : σ → Prop}

theorem Runs.pure (a : α) : Runs P (Pure.pure a : Comp σ ε α) P := by
  rintro s r t hs h
  simp only [pure_run, Option.some.injEq, Prod.mk.injEq] at h
  exact ⟨⟨a, h.1.symm⟩, h.2 ▸ hs⟩

theorem Runs.modify {f : σ → σ} (hf : ∀ s, P s → Q (f s)) : Runs P (modify f : Comp σ ε Unit) Q := by
  rintro s r t hs h
  simp only [modify_run, Option.some.injEq, Prod.mk.injEq] at h
  exact ⟨⟨(), h.1.symm⟩, h.2 ▸ hf s hs⟩

theorem Runs.awaitModify {f : σ → Option σ} (hf : ∀ s t, P s → f s = some t → Q t) :
    Runs P (awaitModify f : Comp σ ε Unit) Q := by
  rintro s r t hs h
  simp only [awaitModify_run, Option.map_eq_some_iff, Prod.mk.injEq] at h
  obtain ⟨u, hu, hr, rfl⟩ := h
  exact ⟨⟨(), hr.symm⟩, hf s u hs hu⟩

/-- a step that does not fail hands what it leads to to the rest -/
theorem Runs.spec_bind {m : Comp σ ε α} {f : α → Comp σ ε β} {S : Except ε β → σ → Prop} (hm : Runs P m Q)
    (hf : ∀ a, Spec Q (f a) S) : Spec P (m >>= f) S := by
  rintro s r t hs h
  rcases bind_returns h with ⟨e, h, _⟩ | ⟨a, u, hu, h⟩
  · obtain ⟨⟨a, ha⟩, -⟩ := hm s _ t hs h
    cases ha
  · exact hf a u r t (hm s _ u hs hu).2 h

theorem Runs.bind {m : Comp σ ε α} {f : α → Comp σ ε β} (hm : Runs P m Q) (hf : ∀ a, Runs Q (f a) R) :
    Runs P (m >>= f) R :=
  hm.spec_bind hf

theorem Runs.whenSome {o : Option β} {body : β → Comp σ ε Unit} (hb : ∀ b, Runs P (body b) P) :
    Runs P (whenSome o body) P := by
  cases o with
  | none => exact Runs.pure ()
  | some b => exact hb b

end Runs

/-! ## Steps that return -/

section Returns

variable {P : σ → Prop} {Q : Except ε α → σ → Prop} {S : Except ε β → σ → Prop}

end Returns

end Comp

end Render.Core
