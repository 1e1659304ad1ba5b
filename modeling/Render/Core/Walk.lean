/-
Walks along a partial function `next : α → Option α`, over any type. Nothing here is about this repository.

- `walk next k a`: the values the loop `current = next(current)` visits from a, `none` when k passes do not reach an end.
- `Ends next a`: the loop started at a reaches an end.
- `Up next a b`: the loop started at a visits b.

A walk that ends visits no value twice (`walk_nodup`), so when every value that has a successor lies in a finite set S,
|S| + 1 passes are enough (`walk_enough`): the bound by which a loop over a finite store is run.
-/
import Mathlib.Tactic

namespace Render.Core

variable {α : Type}

/-- the values visited from a, `none` when k passes do not reach a value without successor -/
def walk (next : α → Option α) : ℕ → α → Option (List α)
  | 0, _ => none
  | k + 1, a =>
    match next a with
    | none => some [a]
    | some b => (walk next k b).map (a :: ·)

/-- the loop `current = next(current)` started at a reaches an end -/
inductive Ends (next : α → Option α) : α → Prop where
  | stop {a : α} : next a = none → Ends next a
  | step {a b : α} : next a = some b → Ends next b → Ends next a

/-- the loop started at a visits b -/
def Up (next : α → Option α) : α → α → Prop := Relation.ReflTransGen fun a b => next a = some b

variable {next : α → Option α}

/-! ## What a walk visits -/

theorem walk_succ (k : ℕ) (a : α) : walk next (k + 1) a =
    match next a with
    | none => some [a]
    | some b => (walk next k b).map (a :: ·) := rfl

theorem walk_succ_none {a : α} (k : ℕ) (h : next a = none) : walk next (k + 1) a = some [a] := by
  rw [walk_succ, h]

theorem walk_succ_some {a b : α} (k : ℕ) (h : next a = some b) :
    walk next (k + 1) a = (walk next k b).map (a :: ·) := by
  rw [walk_succ, h]

theorem walk_head {k : ℕ} {a : α} {l : List α} (h : walk next k a = some l) : ∃ t, l = a :: t := by
  cases k with
  | zero => cases h
  | succ k =>
    cases hn : next a with
    | none => rw [walk_succ_none k hn] at h; exact ⟨[], (Option.some.inj h).symm⟩
    | some b =>
      rw [walk_succ_some k hn, Option.map_eq_some_iff] at h
      obtain ⟨t, -, rfl⟩ := h
      exact ⟨t, rfl⟩

/-- more passes do not change a walk that has ended -/
theorem walk_mono {k m : ℕ} {a : α} {l : List α} (h : walk next k a = some l) (hkm : k ≤ m) :
    walk next m a = some l := by
  induction k generalizing m a l with
  | zero => cases h
  | succ k ih =>
    obtain ⟨m, rfl⟩ : ∃ m', m = m' + 1 := ⟨m - 1, by omega⟩
    cases hn : next a with
    | none => rw [walk_succ_none k hn] at h; rw [walk_succ_none m hn]; exact h
    | some b =>
      rw [walk_succ_some k hn, Option.map_eq_some_iff] at h
      obtain ⟨t, ht, rfl⟩ := h
      rw [walk_succ_some m hn, ih ht (by omega)]; rfl

theorem walk_unique {k m : ℕ} {a : α} {l l' : List α} (h : walk next k a = some l) (h' : walk next m a = some l') :
    l = l' := by
  have h1 := walk_mono h (Nat.le_max_left k m)
  have h2 := walk_mono h' (Nat.le_max_right k m)
  exact Option.some.inj (h1.symm.trans h2)

/-- a walk takes one pass for each value it visits -/
theorem walk_of_length {k : ℕ} {a : α} {l : List α} (h : walk next k a = some l) : walk next l.length a = some l := by
  induction k generalizing a l with
  | zero => cases h
  | succ k ih =>
    cases hn : next a with
    | none => rw [walk_succ_none k hn] at h; obtain rfl := Option.some.inj h; exact walk_succ_none 0 hn
    | some b =>
      rw [walk_succ_some k hn, Option.map_eq_some_iff] at h
      obtain ⟨t, ht, rfl⟩ := h
      rw [List.length_cons, walk_succ_some _ hn, ih ht]; rfl

theorem walk_ends {k : ℕ} {a : α} {l : List α} (h : walk next k a = some l) : Ends next a := by
  induction k generalizing a l with
  | zero => cases h
  | succ k ih =>
    cases hn : next a with
    | none => exact Ends.stop hn
    | some b =>
      rw [walk_succ_some k hn, Option.map_eq_some_iff] at h
      obtain ⟨t, ht, -⟩ := h
      exact Ends.step hn (ih ht)

theorem Ends.walk {a : α} (h : Ends next a) : ∃ k l, walk next k a = some l := by
  induction h with
  | stop hn => exact ⟨1, _, walk_succ_none 0 hn⟩
  | step hn _ ih =>
    obtain ⟨k, l, hl⟩ := ih
    exact ⟨k + 1, _, by rw [walk_succ_some k hn, hl]; rfl⟩

/-- every value a walk visits starts a walk of its own, which is the rest of the first one -/
theorem walk_of_mem {k : ℕ} {a x : α} {l : List α} (h : walk next k a = some l) (hx : x ∈ l) :
    ∃ m l', walk next m x = some l' ∧ l' <:+ l := by
  induction k generalizing a l with
  | zero => cases h
  | succ k ih =>
    cases hn : next a with
    | none =>
      have hl := h
      rw [walk_succ_none k hn] at hl
      obtain rfl := Option.some.inj hl
      obtain rfl := List.mem_singleton.1 hx
      exact ⟨_, _, h, List.suffix_refl _⟩
    | some b =>
      have hl := h
      rw [walk_succ_some k hn, Option.map_eq_some_iff] at hl
      obtain ⟨t, ht, rfl⟩ := hl
      rcases List.mem_cons.1 hx with rfl | hx
      · exact ⟨_, _, h, List.suffix_refl _⟩
      · obtain ⟨m, l', hm, hs⟩ := ih ht hx
        exact ⟨m, l', hm, hs.trans (List.suffix_cons _ _)⟩

/-- a walk that ends visits no value twice -/
theorem walk_nodup {k : ℕ} {a : α} {l : List α} (h : walk next k a = some l) : l.Nodup := by
  induction k generalizing a l with
  | zero => cases h
  | succ k ih =>
    cases hn : next a with
    | none => rw [walk_succ_none k hn] at h; obtain rfl := Option.some.inj h; exact List.nodup_singleton a
    | some b =>
      have hl := h
      rw [walk_succ_some k hn, Option.map_eq_some_iff] at hl
      obtain ⟨t, ht, rfl⟩ := hl
      refine List.nodup_cons.2 ⟨fun ha => ?_, ih ht⟩
      -- a walk from a inside t would be shorter than the walk from a
      obtain ⟨m, l', hm, hs⟩ := walk_of_mem ht ha
      have hlen := hs.length_le
      rw [walk_unique hm h, List.length_cons] at hlen
      omega

theorem mem_walk_iff {k : ℕ} {a x : α} {l : List α} (h : walk next k a = some l) : x ∈ l ↔ Up next a x := by
  constructor
  · intro hx
    induction k generalizing a l with
    | zero => cases h
    | succ k ih =>
      cases hn : next a with
      | none =>
        rw [walk_succ_none k hn] at h
        obtain rfl := Option.some.inj h
        obtain rfl := List.mem_singleton.1 hx
        exact Relation.ReflTransGen.refl
      | some b =>
        rw [walk_succ_some k hn, Option.map_eq_some_iff] at h
        obtain ⟨t, ht, rfl⟩ := h
        rcases List.mem_cons.1 hx with rfl | hx
        · exact Relation.ReflTransGen.refl
        · exact Relation.ReflTransGen.head hn (ih ht hx)
  · intro hx
    induction hx with
    | refl => obtain ⟨t, rfl⟩ := walk_head h; exact List.mem_cons_self
    | tail _ hbc ih =>
      obtain ⟨m, l', hm, hs⟩ := walk_of_mem h ih
      cases m with
      | zero => simp [Core.walk] at hm
      | succ m =>
        rw [walk_succ_some m hbc, Option.map_eq_some_iff] at hm
        obtain ⟨t, ht, rfl⟩ := hm
        obtain ⟨t', rfl⟩ := walk_head ht
        exact hs.subset (List.mem_cons_of_mem _ List.mem_cons_self)

/-! ## How many passes a walk needs -/

/-- every value a walk visits, but possibly its last one, has a successor -/
theorem walk_dropLast {k : ℕ} {a x : α} {l : List α} (h : walk next k a = some l) (hx : x ∈ l.dropLast) :
    ∃ b, next x = some b := by
  induction k generalizing a l with
  | zero => cases h
  | succ k ih =>
    cases hn : next a with
    | none => rw [walk_succ_none k hn] at h; obtain rfl := Option.some.inj h; simp at hx
    | some b =>
      rw [walk_succ_some k hn, Option.map_eq_some_iff] at h
      obtain ⟨t, ht, rfl⟩ := h
      obtain ⟨t', rfl⟩ := walk_head ht
      rw [List.dropLast_cons_cons] at hx
      rcases List.mem_cons.1 hx with rfl | hx
      · exact ⟨b, hn⟩
      · exact ih ht hx

theorem walk_last {k : ℕ} {a : α} {l : List α} (h : walk next k a = some l) : ∃ z ∈ l.getLast?, next z = none := by
  induction k generalizing a l with
  | zero => cases h
  | succ k ih =>
    cases hn : next a with
    | none => rw [walk_succ_none k hn] at h; obtain rfl := Option.some.inj h; exact ⟨a, by simp, hn⟩
    | some b =>
      rw [walk_succ_some k hn, Option.map_eq_some_iff] at h
      obtain ⟨t, ht, rfl⟩ := h
      obtain ⟨z, hz, hnz⟩ := ih ht
      obtain ⟨t', rfl⟩ := walk_head ht
      exact ⟨z, by rwa [List.getLast?_cons_cons], hnz⟩

/-- when every value with a successor lies in S, a walk visits at most |S| + 1 values -/
theorem walk_length_le [DecidableEq α] (S : Finset α) (hS : ∀ a b, next a = some b → a ∈ S) {k : ℕ} {a : α} {l : List α}
    (h : walk next k a = some l) : l.length ≤ S.card + 1 := by
  have hnd : l.dropLast.Nodup := (walk_nodup h).sublist (List.dropLast_sublist l)
  have hsub : l.dropLast.toFinset ⊆ S := by
    intro x hx
    obtain ⟨b, hb⟩ := walk_dropLast h (List.mem_toFinset.1 hx)
    exact hS x b hb
  have hcard := Finset.card_le_card hsub
  rw [List.toFinset_card_of_nodup hnd, List.length_dropLast] at hcard
  omega

/-- **|S| + 1 passes are enough.** A loop that reaches an end does so within |S| + 1 passes. -/
theorem walk_enough [DecidableEq α] (S : Finset α) (hS : ∀ a b, next a = some b → a ∈ S) {a : α} (h : Ends next a)
    {k : ℕ} (hk : S.card + 1 ≤ k) : ∃ l, walk next k a = some l := by
  obtain ⟨m, l, hm⟩ := h.walk
  exact ⟨l, walk_mono (walk_of_length hm) ((walk_length_le S hS hm).trans hk)⟩

/-! ## The order of the values on a walk -/

theorem Up.refl (a : α) : Up next a a := Relation.ReflTransGen.refl

theorem Up.head {a b c : α} (h : next a = some b) (hbc : Up next b c) : Up next a c := Relation.ReflTransGen.head h hbc

theorem Up.trans {a b c : α} (h : Up next a b) (hbc : Up next b c) : Up next a c := Relation.ReflTransGen.trans h hbc

theorem Up.single {a b : α} (h : next a = some b) : Up next a b := Relation.ReflTransGen.single h

theorem Up.cases {a c : α} (h : Up next a c) : a = c ∨ ∃ b, next a = some b ∧ Up next b c :=
  Relation.ReflTransGen.cases_head h

theorem Up.eq_of_none {a c : α} (h : Up next a c) (hn : next a = none) : c = a := by
  rcases h.cases with h | ⟨b, hb, -⟩
  · exact h.symm
  · rw [hn] at hb; cases hb

/-- two values a walk visits are visited one before the other -/
theorem Up.comparable {a b c : α} (hb : Up next a b) (hc : Up next a c) : Up next b c ∨ Up next c b := by
  induction hb with
  | refl => exact Or.inl hc
  | tail hab hbb' ih =>
    rcases ih with h | h
    · rcases h.cases with rfl | ⟨x, hx, hxc⟩
      · exact Or.inr (Up.single hbb')
      · rw [hbb'] at hx; cases hx; exact Or.inl hxc
    · exact Or.inr (h.trans (Up.single hbb'))

theorem Ends.of_up {a b : α} (h : Ends next a) (hab : Up next a b) : Ends next b := by
  induction hab with
  | refl => exact h
  | tail _ hbc ih =>
    cases ih with
    | stop hn => rw [hbc] at hn; cases hn
    | step hn he => rw [hbc] at hn; cases hn; exact he

/-- a walk that comes to a value from which walks end, ends -/
theorem Up.ends {a b : α} (hab : Up next a b) (h : Ends next b) : Ends next a := by
  induction hab using Relation.ReflTransGen.head_induction_on with
  | refl => exact h
  | head hac _ ih => exact Ends.step hac ih

/-- a walk that ends does not come back: no value has itself above its own successor -/
theorem Ends.irrefl {a b : α} (h : Ends next a) (hb : next a = some b) : ¬ Up next b a := by
  intro hba
  induction h generalizing b with
  | stop hn => rw [hn] at hb; cases hb
  | step hn _ ih =>
    rw [hn] at hb; cases hb
    rcases hba.cases with rfl | ⟨c, hc, hca⟩
    · exact ih hn (Up.refl _)
    · exact ih hc (hca.trans (Up.single hn))

theorem Ends.antisymm {a b : α} (h : Ends next a) (hab : Up next a b) (hba : Up next b a) : a = b := by
  rcases hab.cases with rfl | ⟨c, hc, hcb⟩
  · rfl
  · exact absurd (hcb.trans hba) (h.irrefl hc)

/-- a rank that falls along `next` makes every walk end -/
theorem ends_of_rank (rank : α → ℕ) (h : ∀ a b, next a = some b → rank b < rank a) (a : α) : Ends next a := by
  induction hr : rank a using Nat.strong_induction_on generalizing a with
  | _ n ih =>
    cases hn : next a with
    | none => exact Ends.stop hn
    | some b => exact Ends.step hn (ih (rank b) (hr ▸ h a b hn) b rfl)

/-- when every walk ends and every value with a successor lies in a finite set, the walks down are finite too -/
theorem acc_of_ends [DecidableEq α] (S : Finset α) (hS : ∀ a b, next a = some b → a ∈ S) (hends : ∀ a, Ends next a)
    (a : α) : Acc (fun b a => next b = some a) a := by
  choose l hl using fun a => walk_enough S hS (hends a) le_rfl
  -- the walk from b is one step longer than the walk from its successor, and no walk is longer than |S| + 1
  have hstep : ∀ a b, next b = some a → (l b).length = (l a).length + 1 := by
    intro a b hb
    have h : walk next (S.card + 2) b = some (b :: l a) := by
      rw [walk_succ_some _ hb, hl a]; rfl
    rw [walk_unique (hl b) h, List.length_cons]
  have hle : ∀ a, (l a).length ≤ S.card + 1 := fun a => walk_length_le S hS (hl a)
  induction hn : S.card + 1 - (l a).length using Nat.strong_induction_on generalizing a with
  | _ n ih =>
    refine Acc.intro a fun b hb => ih _ ?_ b rfl
    have h1 := hstep a b hb
    have h2 := hle b
    omega

/-! ## Changing `next` -/

/-- a walk in leaps, each of at least one step of a walk that ends, ends -/
theorem Ends.of_leaps {next' : α → Option α} (h : ∀ a b, next' a = some b → ∃ c, next a = some c ∧ Up next c b) {a : α}
    (ha : Ends next a) : Ends next' a := by
  have hall : ∀ x, Up next a x → Ends next' x := by
    induction ha with
    | stop hn =>
      rename_i a
      intro x hx
      obtain rfl := hx.eq_of_none hn
      cases hn' : next' x with
      | none => exact Ends.stop hn'
      | some b => obtain ⟨c, hc, -⟩ := h _ _ hn'; rw [hn] at hc; cases hc
    | step hn _ ih =>
      intro x hx
      rcases hx.cases with rfl | ⟨c, hc, hcx⟩
      · cases hn' : next' _ with
        | none => exact Ends.stop hn'
        | some y =>
          obtain ⟨c, hc, hcy⟩ := h _ _ hn'
          rw [hn] at hc; cases hc
          exact Ends.step hn' (ih y hcy)
      · rw [hn] at hc; cases hc
        exact ih x hcx
  exact hall a (Up.refl a)

/-- cutting walks short keeps them ending -/
theorem Ends.mono {next' : α → Option α} (h : ∀ a b, next' a = some b → next a = some b) {a : α}
    (ha : Ends next a) : Ends next' a := by
  induction ha with
  | stop hn =>
    rename_i a
    cases hn' : next' a with
    | none => exact Ends.stop hn'
    | some b => rw [h _ _ hn'] at hn; cases hn
  | step hn _ ih =>
    rename_i a b _
    cases hn' : next' a with
    | none => exact Ends.stop hn'
    | some c =>
      have := h _ _ hn'
      rw [hn] at this; cases this
      exact Ends.step hn' ih

theorem Up.mono {next' : α → Option α} (h : ∀ a b, next a = some b → next' a = some b) {a b : α} (hab : Up next a b) :
    Up next' a b := by
  induction hab with
  | refl => exact Up.refl _
  | tail _ hcd ih => exact ih.trans (Up.single (h _ _ hcd))

/-! ### Sending values elsewhere -/

section Redirect

variable {next' : α → Option α} {moved : α → Prop} {p : α} (hin : ∀ x, moved x → next' x = some p)
  (hout : ∀ x, ¬ moved x → next' x = next x)

include hout

/-- a walk that meets no moved value ends as before -/
theorem Ends.avoid {a : α} (h : Ends next a) (hnone : ∀ c, moved c → ¬ Up next a c) : Ends next' a := by
  induction h with
  | stop hn =>
    rename_i a
    have hself : ¬ moved a := fun hmoved => hnone a hmoved (Up.refl a)
    exact Ends.stop ((hout a hself).trans hn)
  | step hn _ ih =>
    rename_i a b _
    have hself : ¬ moved a := fun hmoved => hnone a hmoved (Up.refl a)
    exact Ends.step ((hout a hself).trans hn) (ih fun c hc hup => hnone c hc (hup.head hn))

/-- a walk that met a moved value still meets one: the first of them -/
theorem Up.meets {a c : α} (hc : moved c) (h : Up next a c) : ∃ x, moved x ∧ Up next' a x := by
  induction h using Relation.ReflTransGen.head_induction_on with
  | refl => exact ⟨c, hc, Up.refl c⟩
  | @head a b hab _ ih =>
    by_cases ha : moved a
    · exact ⟨a, ha, Up.refl a⟩
    · obtain ⟨x, hx, hup⟩ := ih
      exact ⟨x, hx, hup.head ((hout a ha).trans hab)⟩

include hin

/-- **Where walks end after values were moved to one place.** A walk is caught exactly when it meets a moved value and the
place itself leads to one. -/
theorem ends_redirect_iff (hends : ∀ a, Ends next a) (a : α) :
    Ends next' a ↔ ¬ ((∃ c, moved c ∧ Up next a c) ∧ ∃ c, moved c ∧ Up next p c) := by
  constructor
  · rintro h ⟨⟨c, hc, hac⟩, ⟨c', hc', hpc⟩⟩
    obtain ⟨x, hx, hax⟩ := Up.meets hout hc hac
    obtain ⟨y, hy, hpy⟩ := Up.meets hout hc' hpc
    have hy_ends : Ends next' y := h.of_up ((hax.trans (Up.single (hin x hx))).trans hpy)
    exact hy_ends.irrefl (hin y hy) hpy
  · intro hfree
    by_cases hplace : ∃ c, moved c ∧ Up next p c
    · exact (hends a).avoid hout fun c hc hup => hfree ⟨⟨c, hc, hup⟩, hplace⟩
    · have hp : Ends next' p := (hends p).avoid hout fun c hc hup => hplace ⟨c, hc, hup⟩
      induction hends a with
      | stop hn =>
        rename_i a
        by_cases ha : moved a
        · exact Ends.step (hin a ha) hp
        · exact Ends.stop ((hout a ha).trans hn)
      | step hn _ ih =>
        rename_i a b _
        by_cases ha : moved a
        · exact Ends.step (hin a ha) hp
        · exact Ends.step ((hout a ha).trans hn) (ih fun hboth => hplace hboth.2)

end Redirect

end Render.Core

/-! Relations "c lies directly inside p" whose chains inward are finite, over any type.

- `wellFounded_of_edges`: new edges into p keep the chains finite, when p lies in none of the values put inside it.
- `insideCount S R n`: how many values of S lie inside n; it falls along every step inward (`insideCount_lt`), so it
  bounds a recursion that goes inward.
- `ends_of_wellFounded`: inside a finite set, walks outward end too. -/

namespace Render.Core

variable {α : Type} {R R' : α → α → Prop}

/-- **Adding edges.** R' is R with some values put inside p; it has finite chains inward when p is in none of them. -/
theorem wellFounded_of_edges (hR : WellFounded R) (p : α) (put : α → Prop)
    (hR' : ∀ x y, R' x y → R x y ∨ (put x ∧ y = p)) (hp : ∀ c, put c → ¬ Relation.ReflTransGen R p c) :
    WellFounded R' := by
  -- outside of p nothing changes
  have away : ∀ x, ¬ Relation.ReflTransGen R p x → Acc R' x := by
    intro x
    induction hR.apply x with
    | intro x _ ih =>
      intro hx
      refine Acc.intro x fun y hy => ?_
      rcases hR' y x hy with h | ⟨-, rfl⟩
      · exact ih y h fun hpy => hx (hpy.tail h)
      · exact absurd Relation.ReflTransGen.refl hx
  have irrefl : ∀ y, R y p → ¬ Relation.ReflTransGen R p y := fun y hy hpy =>
    hR.transGen.irrefl.irrefl p (Relation.TransGen.tail' hpy hy)
  have hpacc : Acc R' p := by
    refine Acc.intro p fun y hy => ?_
    rcases hR' y p hy with h | ⟨hput, -⟩
    · exact away y (irrefl y h)
    · exact away y (hp y hput)
  refine ⟨fun x => ?_⟩
  induction hR.apply x with
  | intro x _ ih =>
    by_cases hx : x = p
    · exact hx ▸ hpacc
    · refine Acc.intro x fun y hy => ?_
      rcases hR' y x hy with h | ⟨-, he⟩
      · exact ih y h
      · exact absurd he hx

section Count

variable (S : Finset α)

open Classical in
/-- the number of values of S inside n -/
noncomputable def insideCount (R : α → α → Prop) (n : α) : ℕ := (S.filter fun x => Relation.TransGen R x n).card

theorem insideCount_lt (hR : WellFounded R) {c n : α} (h : R c n) (hc : c ∈ S) : insideCount S R c < insideCount S R n := by
  classical
  refine Finset.card_lt_card (Finset.ssubset_iff_of_subset (fun x hx => ?_) |>.2 ⟨c, ?_, fun hmem => ?_⟩)
  · rw [Finset.mem_filter] at hx ⊢
    exact ⟨hx.1, hx.2.tail h⟩
  · exact Finset.mem_filter.2 ⟨hc, Relation.TransGen.single h⟩
  · exact hR.transGen.irrefl.irrefl c (Finset.mem_filter.1 hmem).2

theorem insideCount_le (R : α → α → Prop) (n : α) : insideCount S R n ≤ S.card := by
  classical
  exact Finset.card_filter_le _ _

/-- walks outward end when they stay inside a finite set -/
theorem ends_of_wellFounded (hR : WellFounded R) {next : α → Option α} (h : ∀ a b, next a = some b → R a b)
    (hS : ∀ a b, next a = some b → b ∈ S) (a : α) : Ends next a := by
  classical
  refine ends_of_rank (fun a => (S.filter fun x => Relation.TransGen R a x).card) (fun a b hab => ?_) a
  refine Finset.card_lt_card (Finset.ssubset_iff_of_subset (fun x hx => ?_) |>.2 ⟨b, ?_, fun hmem => ?_⟩)
  · rw [Finset.mem_filter] at hx ⊢
    exact ⟨hx.1, Relation.TransGen.head (h a b hab) hx.2⟩
  · exact Finset.mem_filter.2 ⟨hS a b hab, Relation.TransGen.single (h a b hab)⟩
  · exact hR.transGen.irrefl.irrefl b (Finset.mem_filter.1 hmem).2

end Count

end Render.Core

/-! Walks that stop early, over any type. Nothing here is about this repository.

- `seek next goal k a`: the loop from a that stops at the first value equal to goal, and says whether it met one.
- `Climbs next stop a b`: the loop from a that stops at the first value where `stop` holds, or at the end, stops at b.
- `exists_find?_walk`: the first value of a walk where a test holds. -/

namespace Render.Core

variable {α : Type} {next : α → Option α}

/-! ## Looking for a value -/

/-- the loop that walks along `next` and stops at the first value equal to `goal`, `none` when k passes do not end it -/
def seek [DecidableEq α] (next : α → Option α) (goal : α) : ℕ → α → Option Bool
  | 0, _ => none
  | k + 1, current =>
    if current = goal then some true
    else
      match next current with
      | none => some false
      | some above => seek next goal k above

/-- a loop whose walk ends in time says whether the walk visits the value -/
theorem seek_of_walk [DecidableEq α] {goal a : α} {k : ℕ} {l : List α} (h : walk next k a = some l) :
    seek next goal k a = some (decide (goal ∈ l)) := by
  induction k generalizing a l with
  | zero => simp [walk] at h
  | succ k ih =>
    unfold seek
    cases hn : next a with
    | none =>
      rw [walk_succ_none k hn] at h
      obtain rfl := Option.some.inj h
      by_cases hg : a = goal
      · simp [hg]
      · simp [hg, Ne.symm hg]
    | some b =>
      rw [walk_succ_some k hn, Option.map_eq_some_iff] at h
      obtain ⟨t, ht, rfl⟩ := h
      by_cases hg : a = goal
      · simp [hg]
      · simp [hg, Ne.symm hg, ih ht]

/-! ## Stopping where a condition holds -/

/-- the first value of a walk where p holds: the walk visits every other such value after it -/
theorem exists_find?_walk {p : α → Bool} {k : ℕ} {a x : α} {l : List α} (h : walk next k a = some l) (hx : Up next a x)
    (hp : p x = true) :
    ∃ b, l.find? p = some b ∧ p b = true ∧ Up next a b ∧ ∀ y, Up next a y → p y = true → Up next b y := by
  induction k generalizing a l with
  | zero => simp [walk] at h
  | succ k ih =>
    obtain ⟨t, rfl⟩ := walk_head h
    by_cases ha : p a = true
    · exact ⟨a, by rw [List.find?_cons_of_pos ha], ha, Up.refl a, fun _ hy _ => hy⟩
    rcases hx.cases with rfl | ⟨c, hn, hx⟩
    · exact absurd hp ha
    rw [walk_succ_some k hn, Option.map_eq_some_iff] at h
    obtain ⟨t', ht', he⟩ := h
    obtain rfl := (List.cons.inj he).2
    obtain ⟨b, hb, hpb, hcb, hrest⟩ := ih ht' hx
    refine ⟨b, by rw [List.find?_cons_of_neg ha]; exact hb, hpb, hcb.head hn, fun y hy hpy => ?_⟩
    rcases hy.cases with rfl | ⟨c', hn', hy⟩
    · exact absurd hpy ha
    · rw [hn] at hn'
      obtain rfl := Option.some.inj hn'
      exact hrest y hy hpy

/-- the loop from a stops at b: the first value where `stop` holds, or the end of the walk -/
inductive Climbs (next : α → Option α) (stop : α → Prop) : α → α → Prop where
  | here {a : α} : stop a → Climbs next stop a a
  | top {a : α} : next a = none → Climbs next stop a a
  | step {a b c : α} : ¬ stop a → next a = some b → Climbs next stop b c → Climbs next stop a c

namespace Climbs

variable {stop : α → Prop}

theorem up {a b : α} (h : Climbs next stop a b) : Up next a b := by
  induction h with
  | here _ => exact Up.refl _
  | top _ => exact Up.refl _
  | step _ hn _ ih => exact ih.head hn

theorem stops {a b : α} (h : Climbs next stop a b) : stop b ∨ next b = none := by
  induction h with
  | here hs => exact Or.inl hs
  | top hn => exact Or.inr hn
  | step _ _ _ ih => exact ih

theorem unique {a b c : α} (hb : Climbs next stop a b) (hc : Climbs next stop a c) : b = c := by
  induction hb with
  | here hs =>
    cases hc with
    | here _ => rfl
    | top _ => rfl
    | step hns _ _ => exact absurd hs hns
  | top hn =>
    cases hc with
    | here _ => rfl
    | top _ => rfl
    | step _ hn' _ => rw [hn] at hn'; cases hn'
  | step hns hn _ ih =>
    cases hc with
    | here hs => exact absurd hs hns
    | top hn' => rw [hn] at hn'; cases hn'
    | step _ hn' hc => rw [hn] at hn'; cases hn'; exact ih hc

theorem exists_of_ends {a : α} (h : Ends next a) : ∃ b, Climbs next stop a b := by
  classical
  induction h with
  | stop hn => exact ⟨_, Climbs.top hn⟩
  | step hn _ ih =>
    rename_i a b _
    obtain ⟨c, hc⟩ := ih
    by_cases hs : stop a
    · exact ⟨a, Climbs.here hs⟩
    · exact ⟨c, Climbs.step hs hn hc⟩

/-- the loop goes past every value before b, when none of them stops it -/
theorem of_up {a b : α} (hab : Up next a b) (hb : stop b ∨ next b = none)
    (hbefore : ∀ x y, Up next a x → next x = some y → Up next y b → ¬ stop x) : Climbs next stop a b := by
  induction hab using Relation.ReflTransGen.head_induction_on with
  | refl =>
    rcases hb with hb | hb
    · exact Climbs.here hb
    · exact Climbs.top hb
  | head hac hcb ih =>
    refine Climbs.step (hbefore _ _ (Up.refl _) hac hcb) hac (ih fun x y hx => hbefore x y (hx.head hac))

/-- no value before b stops the loop, when the walk ends -/
theorem before {a b x y : α} (h : Climbs next stop a b) (hends : Ends next a) (hax : Up next a x) (hxy : next x = some y)
    (hyb : Up next y b) : ¬ stop x := by
  induction h with
  | here _ =>
    rename_i a
    exact absurd (hyb.trans hax) ((hends.of_up hax).irrefl hxy)
  | top _ => exact absurd (hyb.trans hax) ((hends.of_up hax).irrefl hxy)
  | step hns hn _ ih =>
    rcases hax.cases with rfl | ⟨c, hc, hcx⟩
    · exact hns
    · rw [hn] at hc; cases hc
      exact ih (hends.of_up (Up.single hn)) hcx hyb

end Climbs

end Render.Core
