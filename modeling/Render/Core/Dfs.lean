/-
Depth-first walks with an explicit stack, over any type. Nothing here is about this repository.

- `dfs succ k stack`: the values the loop `while let Some(a) = stack.pop() { visit a; push succ(a) }` visits, the head of
  the list being the top of the stack; `none` when k passes do not empty it.
- `Visits succ stack l`: the loop started on `stack` empties it and visits l.

When every value has at most one predecessor and the walk up the predecessors ends, the loop visits the values below the
stack, each once (`Visits.nodup`, `Visits.mem_iff`). Over a finite set S it takes at most |S| passes (`dfs_enough`).
-/
import Render.Core.Walk

namespace Render.Core

variable {α : Type}

/-- the values visited from a stack, `none` when k passes do not empty it -/
def dfs (succ : α → List α) : ℕ → List α → Option (List α)
  | _, [] => some []
  | 0, _ :: _ => none
  | k + 1, a :: stack => (dfs succ k (succ a ++ stack)).map (a :: ·)

/-- the loop started on the stack empties it and visits l -/
inductive Visits (succ : α → List α) : List α → List α → Prop where
  | nil : Visits succ [] []
  | cons {a : α} {stack l : List α} : Visits succ (succ a ++ stack) l → Visits succ (a :: stack) (a :: l)

variable {succ : α → List α}

theorem dfs_nil (k : ℕ) : dfs succ k [] = some [] := by cases k <;> rfl

/-- the loop takes one pass for each value it visits -/
theorem Visits.dfs {stack l : List α} (h : Visits succ stack l) {k : ℕ} (hk : l.length ≤ k) :
    dfs succ k stack = some l := by
  induction h generalizing k with
  | nil => exact dfs_nil k
  | cons _ ih =>
    obtain ⟨k, rfl⟩ : ∃ k', k = k' + 1 := ⟨k - 1, by simp only [List.length_cons] at hk; omega⟩
    simp only [List.length_cons, Nat.add_le_add_iff_right] at hk
    simp only [Core.dfs, ih hk, Option.map_some]

theorem Visits.unique {stack l l' : List α} (h : Visits succ stack l) (h' : Visits succ stack l') : l = l' := by
  have e := h.dfs (Nat.le_max_left l.length l'.length)
  have e' := h'.dfs (Nat.le_max_right l.length l'.length)
  exact Option.some.inj (e.symm.trans e')

/-- the loop empties the top of the stack before it reads the rest -/
theorem Visits.append {s1 s2 l1 l2 : List α} (h1 : Visits succ s1 l1) (h2 : Visits succ s2 l2) :
    Visits succ (s1 ++ s2) (l1 ++ l2) := by
  induction h1 with
  | nil => exact h2
  | cons _ ih => exact Visits.cons (by rwa [List.append_eq, ← List.append_assoc])

theorem Visits.flatMap {st : List α} {f : α → List α} (h : ∀ a ∈ st, Visits succ [a] (f a)) :
    Visits succ st (st.flatMap f) := by
  induction st with
  | nil => exact Visits.nil
  | cons a st ih =>
    have := (h a List.mem_cons_self).append (ih fun b hb => h b (List.mem_cons_of_mem a hb))
    simpa [List.flatMap_cons] using this

theorem Visits.single {a : α} {f : α → List α} (h : ∀ b ∈ succ a, Visits succ [b] (f b)) :
    Visits succ [a] (a :: (succ a).flatMap f) :=
  Visits.cons (by rw [List.append_nil]; exact Visits.flatMap h)

/-- the loop ends when the chains of successors are finite -/
theorem visits_of_acc {a : α} (h : Acc (fun b a => b ∈ succ a) a) : ∃ l, Visits succ [a] l := by
  induction h with
  | intro a _ ih =>
    choose f hf using ih
    classical
    refine ⟨_, Visits.single (f := fun b => if hb : b ∈ succ a then f b hb else []) fun b hb => ?_⟩
    simpa [hb] using hf b hb

/-! ## One predecessor each -/

section Up

variable {up : α → Option α} (hup : ∀ a b, b ∈ succ a → up b = some a)
include hup

/-- the loop visits only values below the stack -/
theorem Visits.from_stack {stack l : List α} (h : Visits succ stack l) : ∀ x ∈ l, ∃ a ∈ stack, Up up x a := by
  induction h with
  | nil => simp
  | cons _ ih =>
    rename_i a stack l _
    intro x hx
    rcases List.mem_cons.1 hx with rfl | hx
    · exact ⟨x, List.mem_cons_self, Up.refl x⟩
    · obtain ⟨b, hb, hxb⟩ := ih x hx
      rcases List.mem_append.1 hb with hb | hb
      · exact ⟨a, List.mem_cons_self, hxb.trans (Up.single (hup a b hb))⟩
      · exact ⟨b, List.mem_cons_of_mem a hb, hxb⟩

/-- the stack holds no value twice and none below another -/
def Apart (up : α → Option α) (stack : List α) : Prop := stack.Pairwise fun x y => ¬ Up up x y ∧ ¬ Up up y x

theorem Visits.nodup (hnd : ∀ a, (succ a).Nodup) (hends : ∀ a, Ends up a) {stack l : List α}
    (h : Visits succ stack l) (hst : Apart up stack) : l.Nodup := by
  induction h with
  | nil => exact List.nodup_nil
  | cons hv ih =>
    rename_i a stack l
    obtain ⟨ha, hst⟩ := List.pairwise_cons.1 hst
    refine List.nodup_cons.2 ⟨fun hal => ?_, ih ?_⟩
    · obtain ⟨b, hb, hab⟩ := hv.from_stack hup a hal
      rcases List.mem_append.1 hb with hb | hb
      · exact (hends b).irrefl (hup a b hb) hab
      · exact (ha b hb).1 hab
    · refine List.pairwise_append.2 ⟨?_, hst, fun x hx y hy => ?_⟩
      · -- two siblings: one below the other would put their parent below itself
        refine (hnd a).imp_of_mem fun {x y} hx hy hxy => ⟨fun hu => ?_, fun hu => ?_⟩
        · rcases hu.cases with rfl | ⟨b, hb, hby⟩
          · exact hxy rfl
          · rw [hup a x hx] at hb; cases hb; exact (hends y).irrefl (hup a y hy) hby
        · rcases hu.cases with rfl | ⟨b, hb, hby⟩
          · exact hxy rfl
          · rw [hup a y hy] at hb; cases hb; exact (hends x).irrefl (hup a x hx) hby
      · refine ⟨fun hu => ?_, fun hu => (ha y hy).2 (hu.trans (Up.single (hup a x hx)))⟩
        rcases hu.cases with rfl | ⟨b, hb, hby⟩
        · exact (ha x hy).2 (Up.single (hup a x hx))
        · rw [hup a x hx] at hb; cases hb; exact (ha y hy).1 hby

/-- chains of successors inside a finite set are finite -/
theorem acc_of_up [DecidableEq α] (S : Finset α) (hS : ∀ a b, up a = some b → a ∈ S) (hends : ∀ a, Ends up a) (a : α) :
    Acc (fun b a => b ∈ succ a) a :=
  Subrelation.accessible (fun {b a} hb => hup a b hb) (acc_of_ends S hS hends a)

end Up

/-- with both directions of the link, the loop visits exactly the values below the stack -/
theorem Visits.mem_iff {up : α → Option α} (hup : ∀ a b, b ∈ succ a ↔ up b = some a) {stack l : List α}
    (h : Visits succ stack l) (x : α) : x ∈ l ↔ ∃ a ∈ stack, Up up x a := by
  refine ⟨h.from_stack (fun a b => (hup a b).1) x, ?_⟩
  induction h with
  | nil => simp
  | cons _ ih =>
    rename_i a stack l _
    rintro ⟨b, hb, hxb⟩
    rcases List.mem_cons.1 hb with rfl | hb
    · rcases Relation.ReflTransGen.cases_tail hxb with rfl | ⟨c, hxc, hcb⟩
      · exact List.mem_cons_self
      · exact List.mem_cons_of_mem _ (ih ⟨c, List.mem_append_left _ ((hup b c).2 hcb), hxc⟩)
    · exact List.mem_cons_of_mem _ (ih ⟨b, List.mem_append_right _ hb, hxb⟩)

/-- **|S| passes are enough.** The loop over values of a finite set S empties its stack within |S| passes. -/
theorem dfs_enough [DecidableEq α] {up : α → Option α} (hup : ∀ a b, b ∈ succ a → up b = some a)
    (hnd : ∀ a, (succ a).Nodup) (hends : ∀ a, Ends up a) (S : Finset α) (hS : ∀ a b, up a = some b → a ∈ S)
    {stack : List α} (hst : Apart up stack) (hsub : ∀ a ∈ stack, a ∈ S) {k : ℕ} (hk : S.card ≤ k) :
    ∃ l, dfs succ k stack = some l ∧ Visits succ stack l := by
  choose f hf using fun a => visits_of_acc (acc_of_up hup S hS hends a)
  have hv : Visits succ stack (stack.flatMap f) := Visits.flatMap fun a _ => hf a
  refine ⟨_, hv.dfs (le_trans ?_ hk), hv⟩
  have hmem : (stack.flatMap f).toFinset ⊆ S := by
    intro x hx
    obtain ⟨a, ha, hxa⟩ := hv.from_stack hup x (List.mem_toFinset.1 hx)
    rcases hxa.cases with rfl | ⟨b, hb, -⟩
    · exact hsub x ha
    · exact hS x b hb
  have := Finset.card_le_card hmem
  rwa [List.toFinset_card_of_nodup (hv.nodup hup hnd hends hst)] at this

end Render.Core
